import Mathlib.Data.List.Nodup
import TypeCalculus.Proofs.Cycles

namespace TypeCalculus

namespace Store

def constituents (st : Store) (t : TypeId) : List TypeId :=
  match st.form? t with
  | some (.union members) | some (.intersection members) => members
  | _ => []

abbrev Contains (st : Store) (whole part : TypeId) : Prop := part ∈ st.constituents whole

/-- Every chain of members that begins with the type comes to an end. -/
abbrev Ends (st : Store) (t : TypeId) : Prop := Acc (fun part whole => st.Contains whole part) t

def EndsWithin (st : Store) : Nat → TypeId → Prop
  | 0, t => st.constituents t = []
  | n + 1, t => ∀ part ∈ st.constituents t, st.EndsWithin n part

variable {st : Store}

theorem mentions_of_constituent {t part : TypeId} (h : part ∈ st.constituents t) :
    part ∈ st.mentions t := by
  unfold constituents at h
  split at h
  · rename_i members hf
    exact mentions_of_form hf ▸ h
  · rename_i members hf
    exact mentions_of_form hf ▸ h
  · cases h

/-- The constituents of a type are settled once and for all. -/
theorem Anchored.constituents_extends (ha : st.Anchored) {st' : Store} (hs : st.Extends st')
    {t : TypeId} (ht : t < st.size) : st'.constituents t = st.constituents t := by
  rw [constituents, constituents, ha.form_extends hs ht]

theorem Ends.part {t u : TypeId} (h : st.Ends t) (hu : Relation.ReflTransGen st.Contains t u) :
    st.Ends u := by
  induction hu with
  | refl => exact h
  | tail _ hc ih => exact ih.inv hc

theorem Ends.irreflexive {t : TypeId} (h : st.Ends t) : ¬ Relation.TransGen st.Contains t t := by
  induction h with
  | intro t _ ih =>
    intro hcycle
    obtain ⟨part, hpart, hback⟩ := Relation.TransGen.head'_iff.mp hcycle
    exact ih part hpart (.tail' hback hpart)

theorem EndsWithin.ends {n : Nat} {t : TypeId} (h : st.EndsWithin n t) : st.Ends t := by
  induction n generalizing t with
  | zero =>
    refine ⟨t, fun part hpart => ?_⟩
    have hnone : st.constituents t = [] := h
    have hpart : part ∈ st.constituents t := hpart
    rw [hnone] at hpart
    cases hpart
  | succ n ih => exact ⟨t, fun part hpart => ih (h part hpart)⟩

theorem EndsWithin.of_constituents {t : TypeId} (h : st.constituents t = []) (n : Nat) :
    st.EndsWithin n t := by
  cases n with
  | zero => exact h
  | succ n =>
    intro part hpart
    rw [h] at hpart
    cases hpart

structure Lineage (st : Store) (behind : List TypeId) (t : TypeId) : Prop where
  nodup : (t :: behind).Nodup
  inside : ∀ u ∈ t :: behind, u < st.size
  leads : ∀ u ∈ behind, Relation.TransGen st.Contains u t

namespace Lineage

variable {behind : List TypeId} {t : TypeId} (h : st.Lineage behind t)

include h

theorem step {part : TypeId} (hpart : st.Contains t part) (hlt : part < st.size)
    (hcycle : ¬ Relation.TransGen st.Contains part part) : st.Lineage (t :: behind) part := by
  have hleads : ∀ u ∈ t :: behind, Relation.TransGen st.Contains u part :=
    List.forall_mem_cons.mpr ⟨.single hpart, fun u hu => (h.leads u hu).tail hpart⟩
  refine ⟨List.nodup_cons.mpr ⟨fun hm => hcycle (hleads part hm), h.nodup⟩, ?_, hleads⟩
  exact List.forall_mem_cons.mpr ⟨hlt, h.inside⟩

/-- As no type comes twice, there are fewer of them than the store has. -/
theorem length_lt : behind.length < st.size := by
  have hsub : t :: behind ⊆ List.range st.size := fun u hu => List.mem_range.mpr (h.inside u hu)
  have hcount := h.nodup.length_le_of_subset hsub
  rw [List.length_cons, List.length_range] at hcount
  exact hcount

end Lineage

/-- A chain without repetition has no more links than the store has types. -/
theorem Lineage.endsWithin (ha : st.Anchored) {n : Nat} {t : TypeId} {behind : List TypeId}
    (h : st.Lineage behind t)
    (hcycle : ∀ u, Relation.ReflTransGen st.Contains t u → ¬ Relation.TransGen st.Contains u u)
    (hn : st.size ≤ behind.length + 1 + n) : st.EndsWithin n t := by
  have hstep (part : TypeId) (hpart : st.Contains t part) : st.Lineage (t :: behind) part :=
    h.step hpart (ha.inside (mentions_of_constituent hpart)) (hcycle part (.single hpart))
  induction n generalizing t behind with
  | zero =>
    apply List.eq_nil_iff_forall_not_mem.mpr
    intro part hpart
    have hlong := (hstep part hpart).length_lt
    simp only [List.length_cons] at hlong
    omega
  | succ n ih =>
    intro part hpart
    have htrail := hstep part hpart
    have hcycle' (u : TypeId) (hu : Relation.ReflTransGen st.Contains part u) :
        ¬ Relation.TransGen st.Contains u u := hcycle u (.head hpart hu)
    apply ih htrail hcycle'
    · simp only [List.length_cons]
      omega
    · intro next hnext
      exact htrail.step hnext (ha.inside (mentions_of_constituent hnext))
        (hcycle' next (.single hnext))

/-- A chain goes down to older types, unless there is a placeholder on it. -/
theorem Anchored.lt_or_reserved (ha : st.Anchored) {t u : TypeId}
    (h : Relation.TransGen st.Contains t u) :
    u < t ∨ ∃ p, st.isReserved p = true ∧ Relation.ReflTransGen st.Contains t p ∧
      Relation.TransGen st.Contains p u := by
  induction h with
  | @single u hu =>
    cases hr : st.isReserved t with
    | true => exact .inr ⟨t, hr, .refl, .single hu⟩
    | false => exact .inl (ha.below hr (mentions_of_constituent hu))
  | @tail c u hc hu ih =>
    rcases ih with hlt | ⟨p, hr, htp, hpc⟩
    · cases hr : st.isReserved c with
      | true => exact .inr ⟨c, hr, hc.to_reflTransGen, .single hu⟩
      | false => exact .inl (Nat.lt_trans (ha.below hr (mentions_of_constituent hu)) hlt)
    · exact .inr ⟨p, hr, htp, hpc.tail hu⟩

/-- No placeholder that the members of the type lead to leads to itself. -/
def Acyclic (st : Store) (t : TypeId) : Prop :=
  ∀ p, st.isReserved p = true → Relation.ReflTransGen st.Contains t p →
  ¬ Relation.TransGen st.Contains p p

theorem Acyclic.irreflexive {t : TypeId} (h : st.Acyclic t) (ha : st.Anchored) (u : TypeId)
    (hu : Relation.ReflTransGen st.Contains t u) : ¬ Relation.TransGen st.Contains u u := by
  intro hcycle
  rcases ha.lt_or_reserved hcycle with hlt | ⟨p, hr, hup, hpu⟩
  · exact Nat.lt_irrefl u hlt
  · exact h p hr (hu.trans hup) (hpu.trans_left hup)

theorem Acyclic.endsWithin {t : TypeId} (h : st.Acyclic t) (ha : st.Anchored) :
    st.EndsWithin st.size t := by
  by_cases ht : t < st.size
  · have hlineage : st.Lineage [] t :=
      ⟨List.nodup_singleton t, fun u hu => List.mem_singleton.mp hu ▸ ht, fun u hu => by cases hu⟩
    exact hlineage.endsWithin ha (h.irreflexive ha) (by simp)
  · have hnone (part : TypeId) : part ∉ st.constituents t := fun hm =>
      ht (lt_size_of_mentions (mentions_of_constituent hm))
    exact EndsWithin.of_constituents (List.eq_nil_iff_forall_not_mem.mpr hnone) _

/-- Chains end where no placeholder leads to itself, and there alone. -/
theorem Anchored.ends_iff (ha : st.Anchored) (t : TypeId) : st.Ends t ↔ st.Acyclic t :=
  ⟨fun h _ _ hp => (h.part hp).irreflexive, fun h => (h.endsWithin ha).ends⟩

section Congr

variable {F : Store → Store → Prop} [Evolution F] {f g : TypeId → StoreM TypeId}

def RunsAlike {α : Type} (F : Store → Store → Prop) (f g : TypeId → StoreM α) (st : Store)
    (t : TypeId) : Prop :=
  ∀ st', F st st' → F st' (Action.run (f t) st').2 ∧ Action.run (f t) st' = Action.run (g t) st'

theorem RunsAlike.later {st' : Store} {t : TypeId} (h : RunsAlike F f g st t) (hs : F st st') :
    RunsAlike F f g st' t :=
  fun st'' hs' => h st'' (Evolution.trans hs hs')

omit [Evolution F] in
/-- Actions that begin alike are alike if they go on alike. -/
theorem run_bind_alike {α β : Type} {x y : StoreM α} {k l : α → StoreM β}
    (h : Action.run x st = Action.run y st)
    (hk : Action.run (k (Action.run x st).1) (Action.run x st).2 =
      Action.run (l (Action.run x st).1) (Action.run x st).2) :
    Action.run (x >>= k) st = Action.run (y >>= l) st := by
  rw [Action.run_bind, hk, h, ← Action.run_bind]

theorem run_mapM_alike {ts : List TypeId} (h : ∀ t ∈ ts, RunsAlike F f g st t) :
    Action.run (ts.mapM f) st = Action.run (ts.mapM g) st := by
  induction ts generalizing st with
  | nil => rfl
  | cons t ts ih =>
    obtain ⟨hev, hrun⟩ := h t List.mem_cons_self st (Evolution.refl st)
    rw [List.mapM_cons, List.mapM_cons]
    apply run_bind_alike hrun
    exact run_bind_alike (ih fun u hu => (h u (List.mem_cons_of_mem t hu)).later hev) rfl

omit [Evolution F] in
theorem alike_keyMembers {t : TypeId} (h : RunsAlike F f g st t) :
    RunsAlike F (keyMembers f) (keyMembers g) st t := by
  intro st' hs
  obtain ⟨hev, hrun⟩ := h st' hs
  exact ⟨hev, run_bind_alike hrun rfl⟩

theorem run_commonKeys_alike {ts : List TypeId} (h : ∀ t ∈ ts, RunsAlike F f g st t) :
    Action.run (commonKeys f ts) st = Action.run (commonKeys g ts) st := by
  have hfold (rest common : List TypeId) {st : Store} (h : ∀ t ∈ rest, RunsAlike F f g st t) :
      Action.run (rest.foldlM (fun common t => do
        let others ← keyMembers f t
        return common.filter (· ∈ others)) common) st =
      Action.run (rest.foldlM (fun common t => do
        let others ← keyMembers g t
        return common.filter (· ∈ others)) common) st := by
    induction rest generalizing common st with
    | nil => rfl
    | cons t rest ih =>
      obtain ⟨hev, hrun⟩ := alike_keyMembers (h t List.mem_cons_self) st (Evolution.refl st)
      rw [List.foldlM_cons, List.foldlM_cons]
      apply run_bind_alike (run_bind_alike hrun rfl)
      exact ih _ fun u hu => (h u (List.mem_cons_of_mem t hu)).later hev
  cases ts with
  | nil => rfl
  | cons first rest =>
    obtain ⟨hev, hrun⟩ := alike_keyMembers (h first List.mem_cons_self) st (Evolution.refl st)
    apply run_bind_alike hrun
    exact hfold rest _ fun u hu => (h u (List.mem_cons_of_mem first hu)).later hev

/-- A step asks about the constituents of the type, and about nothing else. -/
theorem run_keysStep_alike {t : TypeId} (h : ∀ part ∈ st.constituents t, RunsAlike F f g st part) :
    Action.run (keysStep f t) st = Action.run (keysStep g t) st := by
  have hread : Action.run (get : StoreM Store) st = (st, st) := rfl
  unfold keysStep
  rw [Action.run_bind, Action.run_bind, hread]
  dsimp only
  by_cases hany : t = .any
  · rw [if_pos hany, if_pos hany]
  · rw [if_neg hany, if_neg hany]
    cases hl : st.lookup t with
    | none => rfl
    | some node =>
      have hform := form_of_lookup hl
      cases node with
      | union members =>
        have hmembers : st.constituents t = st.list members := by rw [constituents, hform]; rfl
        exact run_bind_alike (run_commonKeys_alike (hmembers ▸ h)) rfl
      | intersection members =>
        have hmembers : st.constituents t = st.list members := by rw [constituents, hform]; rfl
        exact run_bind_alike (run_mapM_alike (hmembers ▸ h)) rfl
      | _ => rfl

end Congr

theorem EndsWithin.later (ha : st.Anchored) {st' : Store} (hs : st.Extends st') {n : Nat}
    {t : TypeId} (h : st.EndsWithin n t) (ht : t < st.size) : st'.EndsWithin n t := by
  induction n generalizing t with
  | zero => exact (ha.constituents_extends hs ht).trans h
  | succ n ih =>
    intro part hpart
    rw [ha.constituents_extends hs ht] at hpart
    exact ih (h part hpart) (ha.inside (mentions_of_constituent hpart))

/-- With room for all links of a chain, more room makes no difference. -/
theorem Stocked.run_keysWithin (h : st.Stocked) {n : Nat} {t : TypeId} (hn : st.EndsWithin n t)
    (ht : t < st.size) {room room' : Nat} (hroom : n ≤ room) (hroom' : n ≤ room') :
    Action.run (descend keysStep (fun _ => return .never) room t) st =
      Action.run (descend keysStep (fun _ => return .never) room' t) st := by
  induction n generalizing st t room room' with
  | zero =>
    have hmembers : ∀ f g : TypeId → StoreM TypeId, ∀ part ∈ st.constituents t,
        RunsAlike StoreInvariant.extant.Evolves f g st part := by
      intro f g part hpart
      rw [show st.constituents t = [] from hn] at hpart
      cases hpart
    cases room <;> cases room' <;> exact run_keysStep_alike (hmembers _ _)
  | succ n ih =>
    obtain ⟨below, rfl⟩ : ∃ below, room = below + 1 := ⟨room - 1, by omega⟩
    obtain ⟨below', rfl⟩ : ∃ below, room' = below + 1 := ⟨room' - 1, by omega⟩
    apply run_keysStep_alike (F := StoreInvariant.extant.Evolves)
    intro part hpart st' hs
    have hlt := h.inside (mentions_of_constituent hpart)
    have hlt' : part < st'.size := Nat.lt_of_lt_of_le hlt hs.grown.size
    refine ⟨(BuildRules.gives_keysWithin (r := StoreInvariant.extant.rules.toBuildRules) (hs.good h)
      below hlt').1, ?_⟩
    exact ih (hs.good h) ((hn part hpart).later h.toAnchored hs.grown hlt) hlt'
      (by omega) (by omega)

theorem Acyclic.part {t part : TypeId} (h : st.Acyclic t) (hpart : st.Contains t part) :
    st.Acyclic part :=
  fun p hr hp => h p hr (.head hpart hp)

/-- The keys of a type are found from those of its constituents, wherever chains of members end. -/
theorem Stocked.run_keyof (h : st.Stocked) {t : TypeId} (hacyclic : st.Acyclic t) (ht : t < st.size)
    {st' : Store} (hs : StoreInvariant.extant.Evolves st st') :
    Action.run (keyof t) st' = Action.run (keysStep keyof t) st' := by
  show Action.run (keysStep (descend keysStep (fun _ => return .never) st'.size) t) st' = _
  apply run_keysStep_alike (F := StoreInvariant.extant.Evolves)
  intro part hpart st'' hs'
  rw [h.constituents_extends hs.grown ht] at hpart
  have hs'' : StoreInvariant.extant.Evolves st st'' := Evolution.trans hs hs'
  have hlt := h.inside (mentions_of_constituent hpart)
  have hlt'' : part < st''.size := Nat.lt_of_lt_of_le hlt hs''.grown.size
  have hwithin := ((hacyclic.part hpart).endsWithin h.toAnchored).later h.toAnchored hs''.grown hlt
  refine ⟨(BuildRules.gives_keysWithin (r := StoreInvariant.extant.rules.toBuildRules) (hs''.good h)
    _ hlt'').1, ?_⟩
  exact (hs''.good h).run_keysWithin hwithin hlt'' hs.grown.size (Nat.le_succ_of_le hs''.grown.size)

end Store

/-- Whatever users do with what there is, the recursion over the members of a type ends just if it
meets no placeholder that is a member of itself, directly or further down. Then the keys of the type
are what the recursion says they are. -/
theorem World.Reached.keyof_recursion {w : World} (h : w.Reached) (t : TypeId) :
    (w.store.Ends t ↔ w.store.Acyclic t) ∧
    (w.store.Ends t → t < w.store.size → ∀ st', StoreInvariant.extant.Evolves w.store st' →
      Action.run (Store.keyof t) st' = Action.run (Store.keysStep Store.keyof t) st') := by
  have hstocked := h.sound.stocked
  have hiff := hstocked.toAnchored.ends_iff t
  exact ⟨hiff, fun hends ht st' hs => hstocked.run_keyof (hiff.mp hends) ht hs⟩

/-- A placeholder is made to stand for a union that was built before. -/
def namedUnion : World :=
  [.build .reserve, .build (.array 12), .build (.union [13, .string]),
    .define 12 (.union 1)].foldl World.after {}

theorem World.Reached.keyof_recursion_namedUnion :
    namedUnion.Reached ∧ namedUnion.store.isReserved 12 = true ∧
    namedUnion.store.constituents 12 = [8, 13] ∧
      namedUnion.store.Acyclic 12 ∧
      Action.run (Store.keyof 12) namedUnion.store =
        Action.run (Store.keysStep Store.keyof 12) namedUnion.store := by
  have hreached : namedUnion.Reached := by
    refine .operation (.operation (.operation (.operation .initial _ ?_) _ ?_) _ ?_) _ ?_
    · exact fun _ h => by cases h
    · show ∀ t ∈ [12], t < _
      decide +kernel
    · show ∀ t ∈ [13, 8], t < _
      decide +kernel
    · refine ⟨?_, fun _ h => by cases h⟩
      show (Table.get? _ 1).isSome = true
      decide +kernel
  have hwithin : namedUnion.store.EndsWithin 1 12 := by
    show ∀ part ∈ namedUnion.store.constituents 12, namedUnion.store.constituents part = []
    decide +kernel
  obtain ⟨hiff, hkeyof⟩ := hreached.keyof_recursion 12
  exact ⟨hreached, by decide +kernel, by decide +kernel, hiff.mp hwithin.ends,
    hkeyof hwithin.ends (by decide +kernel) _ (Evolution.refl _)⟩

/-- A placeholder is made to stand for a union of which it is a member. -/
def selfMember : World :=
  [.build .reserve, .build (.union [12, .string]), .define 12 (.union 1)].foldl World.after {}

/-- Its members lead back to it for ever. -/
theorem World.Reached.members_return :
    selfMember.Reached ∧ 12 ∈ selfMember.store.constituents 12 ∧ ¬ selfMember.store.Ends 12 := by
  have hreached : selfMember.Reached := by
    refine .operation (.operation (.operation .initial _ ?_) _ ?_) _ ?_
    · exact fun _ h => by cases h
    · show ∀ t ∈ [12, 8], t < _
      decide +kernel
    · refine ⟨?_, fun _ h => by cases h⟩
      show (Table.get? _ 1).isSome = true
      decide +kernel
  have hself : 12 ∈ selfMember.store.constituents 12 := by decide +kernel
  exact ⟨hreached, hself, fun h => h.irreflexive (.single hself)⟩

end TypeCalculus
