import TypeCalculus.Proofs.KeySelection

namespace TypeCalculus

namespace Matcher

variable {s : State}

theorem leads_attempt {P : Prop} {x : MatchM Bool}
    (h : Leads (Walk Still) x s fun yes _ => yes = true ↔ P) :
    Leads (Walk Still) (attempt x) s fun yes _ => yes = true ↔ P := by
  obtain ⟨hwalk, hyes⟩ := h
  unfold Leads
  rw [run_attempt]
  split
  · rename_i h
    exact ⟨hwalk, iff_of_true rfl (hyes.mp h)⟩
  · rename_i h
    exact ⟨Progression.restore hwalk, iff_of_false Bool.false_ne_true (mt hyes.mpr h)⟩

section Literals

variable {subject : TypeId} {variance : Variance} {value : Literal} (hf : s.2.Founded)
  (hvalue : s.2.lookup subject = some (.literal value)) (below : Goal → MatchM Bool)

include hf hvalue

/-- A literal matches no other one, not even where the limits end the search. -/
theorem leads_step_literal {pattern : TypeId} {other : Literal}
    (hother : s.2.lookup pattern = some (.literal other))
    (hnew : (⟨subject, pattern, variance⟩ : Goal) ∉ s.1.guard.visiting) :
    Leads (Walk Still) (step below ⟨subject, pattern, variance⟩) s
      fun yes _ => yes = true ↔ subject = pattern := by
  unfold Leads
  by_cases he : subject = pattern
  · rw [run_step_same he]
    exact ⟨Evolution.refl s, iff_of_true rfl he⟩
  have htop : pattern.isTop = false := by
    simp only [TypeId.isTop, Bool.or_eq_false_iff, decide_eq_false_iff_not]
    exact ⟨hf.ne_of_literal hother .any, hf.ne_of_literal hother .unknown⟩
  have hbody (g : Guard Goal) :
      Action.run (matchStructure below ⟨subject, pattern, variance⟩ (.literal other))
      (Guarded.setGuard g s.1, s.2) = (false, Guarded.setGuard g s.1, s.2) := by
    unfold matchStructure
    rw [Action.run_bind, run_getStore]
    simp only [hvalue, matchNodes]
    rfl
  rw [run_step_visit he hother (fun _ h => by cases h) htop (hf.ne_of_literal hvalue .never)
    (hf.ne_of_literal hvalue .any)]
  show Leads (Walk Still) _ s fun yes _ => yes = true ↔ subject = pattern
  apply leads_visit
  · intro g hg
    rw [hbody g]
    exact ⟨⟨hg.leave (.refl g), rfl, id⟩, iff_of_false Bool.false_ne_true he⟩
  · intro g hmet
    exact absurd hmet hnew
  · intro g _ hk
    exact ⟨⟨hk, rfl, id⟩, iff_of_false Bool.false_ne_true he⟩

/-- Of several literals a literal matches itself alone. -/
theorem leads_anyM_literals {types : List TypeId}
    (htypes : ∀ t ∈ types, ∃ other, s.2.lookup t = some (.literal other))
    (hnew : ∀ t ∈ types, (⟨subject, t, variance⟩ : Goal) ∉ s.1.guard.visiting) :
    Leads (Walk Still) (types.anyM fun t => attempt (step below ⟨subject, t, variance⟩)) s
      fun yes _ => yes = true ↔ subject ∈ types := by
  induction types generalizing s with
  | nil => exact Leads.pure (by simp)
  | cons t types ih =>
    obtain ⟨⟨other, hother⟩, htypes⟩ := List.forall_mem_cons.mp htypes
    obtain ⟨hfirst, hnew⟩ := List.forall_mem_cons.mp hnew
    apply (leads_attempt (leads_step_literal hf hvalue below hother hfirst)).bind
    intro yes s' hs hyes
    cases yes with
    | true => exact Leads.pure (iff_of_true rfl (List.mem_cons.mpr (.inl (hyes.mp rfl))))
    | false =>
      have hne : subject ≠ t := fun h => Bool.false_ne_true (hyes.mpr h)
      have hstore := hs.kept.store
      apply (ih (hstore ▸ hf) (hstore ▸ hvalue) (hstore ▸ htypes) (hs.guard.visiting ▸ hnew)).mono
      intro yes _ _ hyes
      rw [hyes, List.mem_cons, or_iff_right hne]

end Literals

end Matcher

namespace Store

open Discipline (Evolves)

variable {st : Store}

/-- A literal can be assigned to a type whose members are literals if it is one of these. -/
theorem Comprises.assigns {keys key : TypeId} {types : List TypeId} (h : st.Comprises keys types)
    (hf : st.Founded) {value : Literal} (hkey : st.lookup key = some (.literal value))
    (htypes : ∀ t ∈ types, ∃ other, st.lookup t = some (.literal other)) :
    ((isAssignable key keys).run st).1 = true ↔ key ∈ types := by
  have hmem (m : TypeId) : m ∈ st.unionMembers keys ↔ m ∈ types := by
    rw [h m]
    refine and_iff_left_of_imp fun hm => ?_
    obtain ⟨other, hother⟩ := htypes m hm
    exact hf.ne_of_literal hother .never
  rw [← hmem, unionMembers]
  split
  · rename_i hnever
    subst hnever
    have hprimitive : value.primitive ≠ Intrinsic.never.id := value.primitive_plain.2.2.2
    have hanswer : ((isAssignable key .never).run st).1 = _ :=
      isSome_matchPattern_intrinsic hf hkey .never rfl
    rw [hanswer, decide_eq_true_iff]
    exact iff_of_false hprimitive List.not_mem_nil
  rename_i hnever
  split
  · rename_i id hkeys
    rw [unionMembers, if_neg hnever, hkeys] at hmem
    have hliteral (t : TypeId) (ht : t ∈ st.list id) :
        ∃ other, st.lookup t = some (.literal other) :=
      htypes t ((hmem t).mp ht)
    have hpositive : Limits.matching.Positive := ⟨by decide, by decide⟩
    have hne : key ≠ keys := by
      rintro rfl
      cases hkey.symm.trans hkeys
    have htop : keys.isTop = false := by
      simp only [TypeId.isTop, Bool.or_eq_false_iff, decide_eq_false_iff_not]
      constructor
      · rintro rfl
        cases (hf.lookup .any).symm.trans hkeys
      · rintro rfl
        cases (hf.lookup .unknown).symm.trans hkeys
    obtain ⟨yes, _, _, hrun, hyes⟩ :=
      Matcher.run_matchPattern_visit hpositive (F := Matcher.Walk Matcher.Still)
      (Q := fun yes _ _ => yes = true ↔ key ∈ st.list id) hne hkeys (fun _ h => by cases h) htop
      (hf.ne_of_literal hkey .never) (hf.ne_of_literal hkey .any) fun g stop room hvisiting => by
        obtain ⟨below, hbelow⟩ := Matcher.descend_eq_step stop room
        apply leads_getStore
        simp only [hkey, hbelow]
        apply Matcher.leads_anyM_literals hf hkey below hliteral
        intro t ht hm
        rw [hvisiting, List.mem_singleton] at hm
        obtain ⟨other, hother⟩ := hliteral t ht
        rw [(Goal.mk.inj hm).2.1] at hother
        cases hkeys.symm.trans hother
    have hanswer : ((isAssignable key keys).run st).1 = ((matchPattern key keys).run st).1.isSome :=
      rfl
    rw [hanswer, hrun, ← hyes]
    cases yes <;> simp
  · rename_i hkeys
    have hown : keys ∈ types := by
      rw [← hmem, unionMembers, if_neg hnever]
      split
      · rename_i id hl
        exact absurd hl (hkeys id)
      · exact List.mem_singleton.mpr rfl
    obtain ⟨other, hother⟩ := htypes keys hown
    have hstep : Leads (Matcher.Walk Matcher.Still) (Matcher.ask .matching ⟨key, keys, .covariant⟩)
        (Matcher.start .matching, st) fun yes _ => yes = true ↔ key = keys :=
      Matcher.leads_step_literal hf hkey _ hother List.not_mem_nil
    rw [run_isAssignable, List.mem_singleton]
    exact hstep.2

theorem Stored.earlier {name : String} {t : TypeId} {st' : Store} (h : Stored (.key name) t st')
    (hs : st.Extends st') (ht : t < st.size) : Stored (.key name) t st := by
  obtain ⟨node, hcell, _, hform⟩ := h
  cases node <;> simp only [Store.form, reduceCtorEq, Form.literal.injEq] at hform
  rw [hform, interned_iff, hs.lookup ht, hs.isReserved ht, ← interned_iff] at hcell
  exact ⟨_, hcell, trivial, rfl⟩

namespace HasKeys

variable {shape : Shape} {own : TypeId} {types : List TypeId}

theorem later {st' : Store} (h : HasKeys shape own types st) (hs : st.Extends st') :
    HasKeys shape own types st' where
  comprises later hl := h.comprises later (hs.trans hl)
  named hi := (h.named hi).imp fun _ _ hstored => hstored.later hs
  indexed := h.indexed

theorem cases (h : HasKeys shape own types st) {t : TypeId} (ht : t ∈ types) :
    shape.index = none ∧ (∃ name, Stored (.key name) t st) ∨ shape.index ≠ none ∧ t = .string := by
  by_cases hi : shape.index = none
  · obtain ⟨field, _, hstored⟩ := mem_right_of_forall₂ (h.named hi) ht
    exact .inl ⟨hi, field.name, hstored⟩
  · rw [(h.indexed hi).2] at ht
    exact .inr ⟨hi, List.mem_singleton.mp ht⟩

/-- `string` stands for the keys of a shape with an index signature, and is another type than any
name. -/
theorem mem_string (h : HasKeys shape own types st) (hf : st.Founded) :
    TypeId.string ∈ types ↔ shape.index ≠ none := by
  constructor
  · intro hm hi
    rcases h.cases hm with ⟨_, name, hstored⟩ | ⟨hn, _⟩
    · exact hf.ne_of_literal (lookup_of_key hstored.form) .string rfl
    · exact hn hi
  · intro hi
    rw [(h.indexed hi).2]
    exact List.mem_singleton.mpr rfl

/-- Whether an older name is among the keys was settled before they were asked for. -/
theorem mem_key {st' : Store} (h : HasKeys shape own types st') (hf : st'.Founded)
    (hshared : st'.Shared) (hs : st.Extends st') {key : TypeId} {name : String}
    (hkey : st.form? key = some (.key name)) :
    key ∈ types ↔ shape.index = none ∧ ∃ field ∈ shape.fields, Stored (.key field.name) key st := by
  have hlt := lt_size_of_form hkey
  have hne : key ≠ .string :=
    hf.ne_of_literal ((hs.lookup hlt).trans (lookup_of_key hkey)) .string
  constructor
  · intro hm
    obtain ⟨hi, _⟩ := (h.cases hm).resolve_right fun hr => hne hr.2
    obtain ⟨field, hfield, hstored⟩ := mem_right_of_forall₂ (h.named hi) hm
    exact ⟨hi, field, hfield, hstored.earlier hs hlt⟩
  · rintro ⟨hi, field, hfield, hstored⟩
    obtain ⟨t, ht, hnamed⟩ : ∃ t ∈ types, Stored (.key field.name) t st' :=
      mem_right_of_forall₂ (h.named hi).flip hfield
    exact (hstored.later hs).unique hshared hnamed ▸ ht

/-- A name can be assigned to the keys of an object if it is among them, and to those of an object
with an index signature in any case. -/
theorem assigns {st' : Store} (h : HasKeys shape own types st') (hf : st'.Founded)
    (hs : st.Extends st') {key : TypeId} {name : String} (hkey : st.form? key = some (.key name)) :
    ((isAssignable key own).run st').1 = true ↔ key ∈ types ∨ TypeId.string ∈ types := by
  have hlookup := (hs.lookup (lt_size_of_form hkey)).trans (lookup_of_key hkey)
  rw [h.mem_string hf]
  cases hi : shape.index with
  | none =>
    have htypes (t : TypeId) (ht : t ∈ types) : ∃ other, st'.lookup t = some (.literal other) := by
      obtain ⟨field, _, hstored⟩ := mem_right_of_forall₂ (h.named hi) ht
      exact ⟨_, lookup_of_key hstored.form⟩
    rw [(h.comprises st' (.refl st')).assigns hf hlookup htypes]
    simp
  | some index =>
    have hindex : shape.index ≠ none := fun hn => by cases hi.symm.trans hn
    have hanswer : ((isAssignable key .string).run st').1 = _ :=
      isSome_matchPattern_intrinsic hf hlookup .string rfl
    rw [(h.indexed hindex).1, hanswer]
    exact iff_of_true rfl (.inr fun hn => by cases hn)

end HasKeys

section Common

variable (below : TypeId → StoreM TypeId)

abbrev KeysOf (shapes : List Shape) (all : List (List TypeId)) (st : Store) : Prop :=
  List.Forall₂ (fun shape types => ∃ own, HasKeys shape own types st) shapes all

theorem leads_keyMembers (hf : st.Founded) (hi : st.Indexed) {t : TypeId} {shape : Shape}
    (ht : Shaped shape t st) :
    Leads (Evolves .free) (keyMembers (keysStep below) t) st fun members st' =>
      ∃ own types, HasKeys shape own types st' ∧ ∀ x, x ∈ members ↔ x ∈ types := by
  have hkeys : Leads (Evolves .free) (keysStep below t) st
      fun own st' => ∃ types, HasKeys shape own types st' := by
    have hshape := hasKeys_keysOfShape hf hi shape
    unfold Leads at hshape ⊢
    rw [run_keysStep_object hf ht.form]
    exact hshape
  apply hkeys.bind
  rintro own st' hs ⟨types, h⟩
  apply leads_read
  refine Leads.pure ⟨own, types, h, fun x => ?_⟩
  rw [h.comprises st' (.refl st') x]
  apply and_iff_left_of_imp
  rintro hx rfl
  rcases h.cases hx with ⟨_, name, hstored⟩ | ⟨_, hstring⟩
  · exact (hs.grown.founded hf).ne_of_literal (lookup_of_key hstored.form) .never rfl
  · cases hstring

/-- What is kept of some types is what all the other shapes have among their keys too. -/
theorem leads_restrict (hf : st.Founded) (hi : st.Indexed) {rest : List TypeId}
    {shapes : List Shape} (h : List.Forall₂ (fun t shape => Shaped shape t st) rest shapes)
    (common : List TypeId) :
    Leads (Evolves .free) (rest.foldlM (fun common t => do
        let others ← keyMembers (keysStep below) t
        return common.filter (· ∈ others)) common) st fun kept st' =>
      ∃ all, KeysOf shapes all st' ∧ ∀ x, x ∈ kept ↔ x ∈ common ∧ ∀ types ∈ all, x ∈ types := by
  induction rest generalizing st shapes common with
  | nil =>
    cases h
    exact Leads.pure ⟨[], .nil, fun x => by simp⟩
  | cons t rest ih =>
    obtain ⟨shape, shapes, ht, hrest, rfl⟩ := List.forall₂_cons_left_iff.mp h
    rw [List.foldlM_cons]
    apply ((leads_keyMembers below hf hi ht).bind fun others _ _ hothers =>
      Leads.pure (Q := fun left st' =>
      ∃ own types, HasKeys shape own types st' ∧ ∀ x, x ∈ left ↔ x ∈ common ∧ x ∈ types) ?_).bind
    · rintro left st₁ h₁ ⟨own, types, hkeys, hleft⟩
      have hlater : List.Forall₂ (fun t shape => Shaped shape t st₁) rest shapes :=
        hrest.imp fun _ _ hs => hs.later h₁.grown
      apply (ih (h₁.grown.founded hf) (h₁.grown.indexed.mpr hi) hlater left).mono
      rintro kept st₂ h₂ ⟨all, hall, hkept⟩
      refine ⟨types :: all, .cons ⟨own, hkeys.later h₂.grown⟩ hall, fun x => ?_⟩
      rw [hkept, hleft, List.forall_mem_cons, and_assoc]
    · obtain ⟨own, types, hkeys, hmem⟩ := hothers
      refine ⟨own, types, hkeys, fun x => ?_⟩
      simp [hmem]

/-- The keys that objects have in common are those that every one of them has. -/
theorem leads_commonKeys (hf : st.Founded) (hi : st.Indexed) {members : List TypeId}
    {shapes : List Shape} (hne : members ≠ [])
    (h : List.Forall₂ (fun t shape => Shaped shape t st) members shapes) :
    Leads (Evolves .free) (commonKeys (keysStep below) members) st fun common st' =>
      ∃ all, KeysOf shapes all st' ∧ ∀ x, x ∈ common ↔ ∀ types ∈ all, x ∈ types := by
  cases h with
  | nil => exact absurd rfl hne
  | @cons t shape rest shapes ht hrest =>
    apply (leads_keyMembers below hf hi ht).bind
    rintro first st₁ h₁ ⟨own, types, hkeys, hfirst⟩
    apply (leads_restrict below (h₁.grown.founded hf) (h₁.grown.indexed.mpr hi)
      (hrest.imp fun _ _ hs => hs.later h₁.grown) first).mono
    rintro common st₂ h₂ ⟨all, hall, hcommon⟩
    refine ⟨types :: all, .cons ⟨own, hkeys.later h₂.grown⟩ hall, fun x => ?_⟩
    rw [hcommon, hfirst, List.forall_mem_cons]

end Common

/-- A list of one type, however often, is that type united. -/
theorem run_mkUnion_only {types : List TypeId} {t : TypeId} (hf : st.Founded) (h : Asunder [t] st)
    (hn : t ≠ .never) (hall : ∀ m, m ∈ types ↔ m = t) : (mkUnion types).run st = (t, st) := by
  have hapart : Asunder types st :=
    h.subset (fun m hm => .inr (List.mem_singleton.mpr ((hall m).mp hm))) hf
  have hunited : st.united types = [t] := by
    apply (pairwise_united _).eq_of_mem_iff (List.pairwise_singleton ..)
    intro m
    rw [(hapart st (.refl st)).mem_united, hall, List.mem_singleton]
    exact and_iff_left_of_imp fun he => he ▸ hn
  rw [run_mkUnion, unionPlan_eq, hunited]

/-- A name can be assigned to the union of the common keys if it is one of them, and if `string`
is. -/
theorem leads_mkUnion_common (hf : st.Founded) (hi : st.Indexed) {shapes : List Shape}
    {all : List (List TypeId)} (hne : shapes ≠ []) (h : KeysOf shapes all st) {common : List TypeId}
    (hcommon : ∀ x, x ∈ common ↔ ∀ types ∈ all, x ∈ types) :
    Leads (Evolves .free) (mkUnion common) st fun own st' =>
      ∀ key name, st'.lookup key = some (.literal (.string name)) →
        (((isAssignable key own).run st').1 = true ↔ key ∈ common ∨ TypeId.string ∈ common) := by
  obtain ⟨types, htypes, shape, own, hkeys⟩ : ∃ types ∈ all, ∃ shape own,
      HasKeys shape own types st := by
    cases h with
    | nil => exact absurd rfl hne
    | cons hfirst _ => exact ⟨_, List.mem_cons_self, _, hfirst⟩
  have hsource {x : TypeId} (hx : x ∈ common) := hkeys.cases ((hcommon x).mp hx types htypes)
  by_cases hstring : TypeId.string ∈ common
  · have honly (m : TypeId) : m ∈ common ↔ m = .string := by
      refine ⟨fun hm => ?_, fun hm => hm ▸ hstring⟩
      rcases hsource hm with ⟨hnone, _⟩ | ⟨_, he⟩
      · exact absurd hnone ((hkeys.mem_string hf).mp ((hcommon _).mp hstring types htypes))
      · exact he
    have hrun : Action.run (mkUnion common) st = (.string, st) :=
      run_mkUnion_only hf (asunder_string hf) (by decide) honly
    unfold Leads
    rw [hrun]
    refine ⟨Evolution.refl st, fun key name hkey => ?_⟩
    have hanswer : ((isAssignable key .string).run st).1 = _ :=
      isSome_matchPattern_intrinsic hf hkey .string rfl
    rw [hanswer]
    exact iff_of_true rfl (.inr hstring)
  · have hnames (t : TypeId) (ht : t ∈ common) : ∃ name, Stored (.key name) t st := by
      rcases hsource ht with ⟨_, hname⟩ | ⟨_, rfl⟩
      · exact hname
      · exact absurd ht hstring
    have hev := Form.evolves_build (.union common) st
    refine ⟨hev, fun key name hkey => ?_⟩
    rw [or_iff_left hstring]
    apply (comprises_mkUnion hf hi (asunder_keys hf hnames) (.refl _)).assigns
      (hev.grown.founded hf) hkey
    intro t ht
    obtain ⟨name, hname⟩ := hnames t ht
    exact ⟨_, lookup_of_key (hname.later hev.grown).form⟩

/-- A name can be assigned to the keys of a union if every member has it, or if every member has an
index signature. -/
theorem leads_keyof_union (hf : st.Founded) (hi : st.Indexed) {t : TypeId} {members : List TypeId}
    {shapes : List Shape} (ht : st.form? t = some (.union members)) (hne : members ≠ [])
    (h : List.Forall₂ (fun t shape => Shaped shape t st) members shapes) :
    Leads (Evolves .free) (keyof t) st fun own st' => ∃ all, KeysOf shapes all st' ∧
      ∀ key name, st'.lookup key = some (.literal (.string name)) →
        (((isAssignable key own).run st').1 = true ↔
          (∀ types ∈ all, key ∈ types) ∨ ∀ types ∈ all, TypeId.string ∈ types) := by
  obtain ⟨node, hl, hform⟩ := lookup_of_form ht
  cases node <;> simp only [Store.form, reduceCtorEq, Form.union.injEq] at hform
  rename_i id
  have hany : t ≠ .any := by
    rintro rfl
    cases (hf.lookup .any).symm.trans hl
  obtain ⟨below, hbelow⟩ : ∃ below, descend keysStep (fun _ => return .never) st.size =
      keysStep below := by
    cases st.size <;> exact ⟨_, rfl⟩
  unfold keyof
  apply leads_read
  rw [descend, hbelow, keysStep]
  apply leads_read
  simp only [if_neg hany, hl, hform]
  apply (leads_commonKeys below hf hi hne h).bind
  rintro common st₁ h₁ ⟨all, hall, hcommon⟩
  have hshapes : shapes ≠ [] := by
    rintro rfl
    cases h
    exact hne rfl
  apply (leads_mkUnion_common (h₁.grown.founded hf) (h₁.grown.indexed.mpr hi) hshapes
    hall hcommon).mono
  intro own st₂ h₂ hown
  refine ⟨all, hall.imp fun _ _ hkeys => hkeys.imp fun _ h => h.later h₂.grown,
    fun key name hkey => ?_⟩
  rw [hown key name hkey, hcommon, hcommon]

def hasKey (key t : TypeId) : StoreM Bool := do
  isAssignable key (← keyof t)

end Store

theorem forall_mem_iff_of_forall₂ {α β : Type} {P : α → Prop} {Q : β → Prop} {xs : List α}
    {ys : List β} (h : List.Forall₂ (fun x y => P x ↔ Q y) xs ys) :
    (∀ x ∈ xs, P x) ↔ ∀ y ∈ ys, Q y := by
  induction h with
  | nil => simp
  | cons hxy _ ih => rw [List.forall_mem_cons, List.forall_mem_cons, hxy, ih]

namespace Operation

open Discipline (Evolves)

/-- A name is among the keys of a union of objects if it is among the keys of each member, and if
either all members have an index signature or none has. Each may be asked at any time. -/
theorem union_keys {ops : List Operation} (h : ∀ op ∈ ops, op.isRaw = false) {subject key : TypeId}
    {members : List TypeId} {shapes : List Shape} {name : String} :
    let st := afterAll .initial ops
    st.form? subject = some (.union members) →
    List.Forall₂ (fun m shape => st.form? m = some (.object shape)) members shapes →
    st.form? key = some (.key name) →
    ∀ one, Evolves .free st one → ∀ asked : TypeId → Store, (∀ m, Evolves .free st (asked m)) →
    (((Store.hasKey key subject).run one).1 = true ↔
      (∀ m ∈ members, ((Store.hasKey key m).run (asked m)).1 = true) ∧
        ((∀ shape ∈ shapes, shape.index ≠ none) ∨ ∀ shape ∈ shapes, shape.index = none)) := by
  intro st hsubject hmembers hkey one hone asked hasked
  have hneat : st.Neat := Store.neat_afterAll h
  have hne : members ≠ [] :=
    List.ne_nil_of_length_pos (Nat.lt_of_lt_of_le Nat.two_pos (hneat.several (.inl hsubject)))
  have hshaped : List.Forall₂ (fun m shape => Store.Shaped shape m st) members shapes :=
    hmembers.imp fun _ _ hm => hneat.shaped hm
  have hlookup {later : Store} (hs : st.Extends later) : later.lookup key =
      some (.literal (.string name)) :=
    (hs.lookup (Store.lt_size_of_form hkey)).trans (Store.lookup_of_key hkey)
  -- which shapes have the name was settled before anyone asked
  have hshape {later : Store} (hs : Evolves .free st later) {shape : Shape} {types : List TypeId}
      (hkeys : ∃ own, Store.HasKeys shape own types later) :
      (key ∈ types ↔ shape.index = none ∧ ∃ field ∈ shape.fields,
        Store.Stored (.key field.name) key st) ∧
        (TypeId.string ∈ types ↔ shape.index ≠ none) := by
    obtain ⟨own, hkeys⟩ := hkeys
    have hreached := hs.reached hneat.reached
    exact ⟨hkeys.mem_key hreached.founded hreached.shared hs.grown hkey,
      hkeys.mem_string hreached.founded⟩
  obtain ⟨hrun, all, hall, hanswer⟩ := Store.leads_keyof_union (hone.reached hneat.reached).founded
    (hone.grown.indexed.mpr hneat.nodes.indexed)
    ((hneat.form hone.grown (Store.lt_size_of_form hsubject)).trans hsubject) hne
    (hshaped.imp fun _ _ hm => hm.later hone.grown)
  have hlater := Evolution.trans hone hrun
  have hunion : ((Store.hasKey key subject).run one).1 = true ↔ _ :=
    hanswer key name (hlookup hlater.grown)
  have hmember {m : TypeId} {shape : Shape} (hm : Store.Shaped shape m st) :
      ((Store.hasKey key m).run (asked m)).1 = true ↔
        (shape.index = none ∧ ∃ field ∈ shape.fields, Store.Stored (.key field.name) key st) ∨
          shape.index ≠ none := by
    have hreached := (hasked m).reached hneat.reached
    have hfounded := hreached.founded
    obtain ⟨hrun, types, hkeys⟩ :=
      Store.hasKeys_keyof hfounded hreached.shared.indexed (hm.later (hasked m).grown).form
    have hlater := Evolution.trans (hasked m) hrun
    have hassigns : ((Store.hasKey key m).run (asked m)).1 = true ↔ _ :=
      hkeys.assigns (hrun.grown.founded hfounded) hlater.grown hkey
    rw [hassigns, (hshape hlater ⟨_, hkeys⟩).1, (hshape hlater ⟨_, hkeys⟩).2]
  rw [hunion, forall_mem_iff_of_forall₂ (hall.flip.imp fun _ _ hkeys => (hshape hlater hkeys).1),
    forall_mem_iff_of_forall₂ (hall.flip.imp fun _ _ hkeys => (hshape hlater hkeys).2),
    forall_mem_iff_of_forall₂ (hshaped.imp fun _ _ hm => hmember hm)]
  constructor
  · rintro (hnamed | hindexed)
    · exact ⟨fun shape hs => .inl (hnamed shape hs), .inr fun shape hs => (hnamed shape hs).1⟩
    · exact ⟨fun shape hs => .inr (hindexed shape hs), .inl hindexed⟩
  · rintro ⟨heach, hindexed | hplain⟩
    · exact .inr hindexed
    · exact .inl fun shape hs => (heach shape hs).resolve_right fun hi => hi (hplain shape hs)

/-- Three objects, the last with an index signature, and unions of the first two and of the last
two. The type of a field is not there yet. -/
def unitedRows : List Operation :=
  [.build (.object { fields := [{ name := "a", type := .number }, { name := "b", type := 40 }] }),
    .build (.object { fields := [{ name := "a", type := .string }] }),
    .build (.object
      { fields := [{ name := "a", type := .number }], index := some { type := .number } }),
    .build (.union [12, 13]), .build (.union [13, 14]), .build (.literal (.string "a"))]

theorem union_keys_unitedRows :
    (∀ op ∈ unitedRows, op.isRaw = false) ∧
      let st := afterAll .initial unitedRows
      st.form? 15 = some (.union [12, 13]) ∧ st.form? 17 = some (.key "a") ∧
        ((Store.hasKey 17 12).run st).1 = true ∧ ((Store.hasKey 17 13).run st).1 = true ∧
        ((Store.hasKey 17 15).run st).1 = true := by
  have hraw : ∀ op ∈ unitedRows, op.isRaw = false := by decide
  have hunion : (afterAll .initial unitedRows).form? 15 = some (.union [12, 13]) := by
    decide +kernel
  have hkey : (afterAll .initial unitedRows).form? 17 = some (.key "a") := by decide +kernel
  have hmembers : List.Forall₂ (fun m shape => (afterAll .initial unitedRows).form? m =
      some (.object shape)) [12, 13]
      [{ fields := [{ name := "a", type := .number }, { name := "b", type := 40 }] },
        { fields := [{ name := "a", type := .string }] }] :=
    .cons (by decide +kernel) (.cons (by decide +kernel) .nil)
  have hfirst : ((Store.hasKey 17 12).run (afterAll .initial unitedRows)).1 = true := by
    decide +kernel
  have hsecond : ((Store.hasKey 17 13).run (afterAll .initial unitedRows)).1 = true := by
    decide +kernel
  refine ⟨hraw, hunion, hkey, hfirst, hsecond, ?_⟩
  apply (union_keys hraw hunion hmembers hkey _ (Evolution.refl _) (fun _ => _) fun _ =>
    Evolution.refl _).mpr
  refine ⟨?_, .inr (by decide)⟩
  exact List.forall_mem_cons.mpr ⟨hfirst, List.forall_mem_singleton.mpr hsecond⟩

/-- A name that two objects have is not found in their union if one of them has an index
signature. -/
theorem shared_name_lost :
    (∀ op ∈ unitedRows, op.isRaw = false) ∧
      let st := afterAll .initial unitedRows
      st.form? 16 = some (.union [13, 14]) ∧ st.form? 17 = some (.key "a") ∧
        ((Store.hasKey 17 13).run st).1 = true ∧ ((Store.hasKey 17 14).run st).1 = true ∧
        ((Store.hasKey 17 16).run st).1 = false := by
  decide +kernel

end Operation

end TypeCalculus
