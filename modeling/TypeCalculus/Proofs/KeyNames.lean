import TypeCalculus.Keys
import TypeCalculus.Proofs.RaisedLimits
import TypeCalculus.Proofs.UnionLaws

namespace TypeCalculus

abbrev Form.key (name : String) : Form := .literal (.string name)

namespace Store

open Discipline (Evolves)

variable {st : Store}

theorem Founded.ne_of_literal (hf : st.Founded) {t : TypeId} {value : Literal}
    (ht : st.lookup t = some (.literal value)) (kind : Intrinsic) : t ≠ kind.id := by
  rintro rfl
  cases (hf.lookup kind).symm.trans ht

def Comprises (st : Store) (t : TypeId) (types : List TypeId) : Prop :=
  ∀ m, m ∈ st.unionMembers t ↔ m ∈ types ∧ m ≠ .never

/-- A type is known by its members. -/
theorem Comprises.congr {t : TypeId} {types others : List TypeId} (h : st.Comprises t types)
    (hsame : ∀ m, m ≠ .never → (m ∈ types ↔ m ∈ others)) : st.Comprises t others := by
  intro m
  rw [h m]
  exact and_congr_left (hsame m)

theorem comprises_never (st : Store) : st.Comprises .never [] :=
  fun m => by simp [Store.unionMembers]

/-- The members of a type, with `never` in the place of those that are not chosen. -/
theorem Comprises.chosen {t : TypeId} {types answers : List TypeId} (h : st.Comprises t types)
    {choice : TypeId → Bool}
    (hall : List.Forall₂ (fun x y => y = if choice x then x else .never)
      (st.unionMembers t) answers) :
    (∀ m, m ≠ .never → (m ∈ answers ↔ m ∈ types.filter choice)) ∧
      ∀ y ∈ answers, y = .never ∨ y ∈ types := by
  have hsource {y : TypeId} (hy : y ∈ answers) : y = .never ∨ y ∈ types ∧ choice y = true := by
    obtain ⟨x, hx, rfl⟩ := mem_right_of_forall₂ hall hy
    split
    · exact .inr ⟨((h x).mp hx).1, ‹_›⟩
    · exact .inl rfl
  refine ⟨fun m hn => ⟨fun hm => ?_, fun hm => ?_⟩, fun y hy => (hsource hy).imp_right And.left⟩
  · exact List.mem_filter.mpr ((hsource hm).resolve_left hn)
  · obtain ⟨hm, hc⟩ := List.mem_filter.mp hm
    obtain ⟨y, hy, he⟩ := mem_right_of_forall₂ hall.flip ((h m).mpr ⟨hm, hn⟩)
    have he : y = if choice m then m else .never := he
    rw [if_pos hc] at he
    exact he ▸ hy

/-- None of the types will ever take another one in. -/
def Asunder (types : List TypeId) (st : Store) : Prop :=
  ∀ later, st.Extends later → Apart types later

theorem Asunder.later {types : List TypeId} {st' : Store} (h : Asunder types st)
    (hs : st.Extends st') :
    Asunder types st' :=
  fun _ hl => h _ (hs.trans hl)

theorem Asunder.subset {types others : List TypeId} (h : Asunder types st)
    (hsub : ∀ t ∈ others, t = .never ∨ t ∈ types) (hf : st.Founded) : Asunder others st := by
  intro later hs
  have hmem {t : TypeId} (ht : t ∈ others) (hn : t ≠ .never) : t ∈ types :=
    (hsub t ht).resolve_left hn
  refine ⟨fun ht hn => (h later hs).alone (hmem ht hn) hn, fun {t} ht => ?_,
    fun {t value} ht hl hp => ?_⟩
  · by_cases hn : t = .never
    · subst hn
      exact ⟨by decide, by decide⟩
    · exact (h later hs).plain (hmem ht hn)
  · have hn : t ≠ .never := by
      rintro rfl
      cases ((hs.founded hf).lookup .never).symm.trans hl
    exact (h later hs).literal (hmem ht hn) hl (hmem hp value.primitive_plain.2.2.2)

theorem comprises_single {t : TypeId} {later : Store} (h : Asunder [t] st) (hs : st.Extends later) :
    later.Comprises t [t] := by
  intro m
  by_cases hn : t = .never
  · subst hn
    simp [Store.unionMembers]
  · rw [(h later hs).alone List.mem_cons_self hn, List.mem_singleton]
    exact ⟨fun hm => ⟨hm, hm ▸ hn⟩, fun hm => hm.1⟩

/-- A union of types that stay apart comprises them all, from then on. -/
theorem comprises_mkUnion {types : List TypeId} {later : Store} (hf : st.Founded) (hi : st.Indexed)
    (h : Asunder types st) (hs : ((mkUnion types).run st).2.Extends later) :
    later.Comprises ((mkUnion types).run st).1 types := by
  have hev : st.Extends ((mkUnion types).run st).2 := (Form.evolves_build (.union types) st).grown
  have hlater := hev.trans hs
  intro m
  rw [← (h st (.refl st)).mem_united]
  rw [run_mkUnion, unionPlan_eq] at hs ⊢
  rcases hu : st.united types with _ | ⟨only, _ | ⟨other, rest⟩⟩
  · rfl
  · obtain ⟨hm, hn⟩ := ((h st (.refl st)).mem_united only).mp (hu ▸ List.mem_singleton.mpr rfl)
    show m ∈ later.unionMembers only ↔ _
    rw [(h later hlater).alone hm hn]
  · rw [hu] at hs
    have hstored := (stored_union hi (only :: other :: rest)).later hs
    exact iff_of_eq (congrArg (m ∈ ·) (unionMembers_of_form (hlater.founded hf) hstored.form))

section Key

variable {t : TypeId} {name : String}

theorem stored_mkLiteral (hi : st.Indexed) (value : Literal) :
    Stored (.literal value) ((mkLiteral value).run st).1 ((mkLiteral value).run st).2 :=
  stored_intern hi (.literal value) (fun _ h => by cases h) trivial rfl

theorem lookup_of_key (h : st.form? t = some (.key name)) :
    st.lookup t = some (.literal (.string name)) := by
  obtain ⟨node, hl, hf⟩ := lookup_of_form h
  cases node <;> simp only [form, reduceCtorEq, Form.literal.injEq] at hf
  rw [hl, hf]

/-- Literals of names take no other type in. -/
theorem asunder_keys {types : List TypeId} (hf : st.Founded)
    (h : ∀ t ∈ types, ∃ name, Stored (.key name) t st) : Asunder types st := by
  intro later hs
  have hlookup {t : TypeId} (ht : t ∈ types) :
      ∃ name, later.lookup t = some (.literal (.string name)) := by
    obtain ⟨name, hstored⟩ := h t ht
    exact ⟨name, lookup_of_key (hstored.later hs).form⟩
  have hne {t : TypeId} (ht : t ∈ types) : ∀ kind : Intrinsic, t ≠ kind.id := by
    obtain ⟨name, hl⟩ := hlookup ht
    exact (hs.founded hf).ne_of_literal hl
  refine ⟨fun ht hn => ?_, fun ht => ⟨hne ht .any, hne ht .unknown⟩, fun {t value} ht hl hp => ?_⟩
  · obtain ⟨name, hl⟩ := hlookup ht
    simp [Store.unionMembers, hn, hl]
  · obtain ⟨name, hname⟩ := hlookup ht
    cases hname.symm.trans hl
    exact hne hp .string rfl

theorem asunder_string (hf : st.Founded) : Asunder [.string] st := by
  intro later hs
  have hlookup := (hs.founded hf).lookup .string
  refine ⟨fun {t} ht hn => ?_, fun {t} ht => ?_, fun {t value} ht hl => ?_⟩
  all_goals obtain rfl := List.mem_singleton.mp ht
  · simp only [Store.unionMembers, if_neg hn]
    rw [show later.lookup .string = some (.intrinsic .string) from hlookup]
  · exact ⟨by decide, by decide⟩
  · cases hlookup.symm.trans hl

/-- The names are read off the literals among the members. -/
theorem mem_keyNames {types : List TypeId} (hf : st.Founded) (h : st.Comprises t types) :
    name ∈ st.keyNames t ↔ ∃ m ∈ types, st.lookup m = some (.literal (.string name)) := by
  unfold keyNames
  rw [List.mem_filterMap]
  constructor
  · rintro ⟨m, hm, hname⟩
    split at hname
    · rename_i other hl
      cases hname
      exact ⟨m, ((h m).mp hm).1, hl⟩
    · cases hname
  · rintro ⟨m, hm, hl⟩
    refine ⟨m, (h m).mpr ⟨hm, hf.ne_of_literal hl .never⟩, ?_⟩
    rw [hl]

end Key

/-- The keys are the names of the fields, or `string` if there is an index signature. -/
structure HasKeys (shape : Shape) (own : TypeId) (types : List TypeId) (st : Store) : Prop where
  comprises (later : Store) : st.Extends later → later.Comprises own types
  named : shape.index = none →
    List.Forall₂ (fun field t => Stored (.key field.name) t st) shape.fields types
  indexed : shape.index ≠ none → own = .string ∧ types = [.string]

theorem run_keysStep_object (hf : st.Founded) {t : TypeId} {shape : Shape}
    (h : st.form? t = some (.object shape)) (keys : TypeId → StoreM TypeId) :
    Action.run (keysStep keys t) st = Action.run (keysOfShape shape) st := by
  obtain ⟨node, hl, hshape⟩ := lookup_of_form h
  have hany : t ≠ .any := by
    rintro rfl
    cases (hf.form .any).symm.trans h
  cases node <;> simp only [form, reduceCtorEq, Form.object.injEq] at hshape
  have hread : Action.run (get : StoreM Store) st = (st, st) := rfl
  unfold keysStep
  rw [Action.run_bind, hread]
  simp only [if_neg hany, hl, hshape]

theorem run_keyof_object (hf : st.Founded) {t : TypeId} {shape : Shape}
    (h : st.form? t = some (.object shape)) :
    Action.run (keyof t) st = Action.run (keysOfShape shape) st := by
  have hread : Action.run (get : StoreM Store) st = (st, st) := rfl
  unfold keyof
  rw [Action.run_bind, hread]
  exact run_keysStep_object hf h _

/-- Beside `string`, the names count for nothing. -/
theorem run_mkUnion_string (hf : st.Founded) {types : List TypeId}
    (h : ∀ t ∈ types, ∃ name, Stored (.key name) t st) :
    (mkUnion (types ++ [.string])).run st = (.string, st) := by
  have hkeys := asunder_keys hf h st (.refl st)
  have hstring := asunder_string hf st (.refl st)
  have hflat (m : TypeId) : m ∈ st.flat (types ++ [.string]) ↔
      (m ∈ types ∧ m ≠ .never) ∨ m ∈ [TypeId.string] ∧ m ≠ .never := by
    rw [← hkeys.mem_flat, ← hstring.mem_flat]
    simp [mem_flat, or_and_right, exists_or]
  have hplain {m : TypeId} (hm : m ∈ st.flat (types ++ [.string])) : m ≠ .any ∧ m ≠ .unknown := by
    rcases (hflat m).mp hm with hm | hm
    · exact hkeys.plain hm.1
    · exact hstring.plain hm.1
  have hmem : TypeId.string ∈ st.flat (types ++ [.string]) :=
    (hflat .string).mpr (.inr ⟨List.mem_singleton.mpr rfl, by decide⟩)
  have hunited : st.united (types ++ [.string]) = [.string] := by
    apply (pairwise_united _).eq_of_mem_iff (List.pairwise_singleton ..)
    intro m
    rw [mem_united, List.mem_singleton]
    constructor
    · intro hm
      cases hm with
      | any ha => exact absurd rfl (hplain ha).1
      | unknown _ hu => exact absurd rfl (hplain hu).2
      | member _ _ hm _ hl =>
        rcases (hflat m).mp hm with ⟨hm, _⟩ | ⟨hm, _⟩
        · obtain ⟨name, hname⟩ := h m hm
          exact absurd hmem (hl _ (lookup_of_key hname.form))
        · exact List.mem_singleton.mp hm
    · rintro rfl
      refine .member (fun ha => (hplain ha).1 rfl) (fun hu => (hplain hu).2 rfl) hmem (by decide) ?_
      intro value hl
      cases (hf.lookup .string).symm.trans hl
  rw [run_mkUnion, unionPlan_eq, hunited]

theorem hasKeys_keysOfShape (hf : st.Founded) (hi : st.Indexed) (shape : Shape) :
    Leads (Evolves .free) (keysOfShape shape) st fun own st' => ∃ types,
    HasKeys shape own types st' := by
  have hnames : Leads (Evolves .free) (shape.fields.mapM fun field =>
      mkLiteral (.string field.name)) st
      fun types st' => List.Forall₂ (fun field t => Stored (.key field.name) t st')
        shape.fields types := by
    apply Leads.mapM
    · intro field t st₁ st₂ _ h₂ h
      exact h.later h₂.grown
    · intro field _ st' h'
      exact ⟨Form.evolves_build (.key field.name) st', stored_mkLiteral (h'.grown.indexed.mpr hi) _⟩
  apply hnames.bind
  intro types st₁ h₁ hall
  have hf₁ := h₁.grown.founded hf
  have hkeys : ∀ t ∈ types, ∃ name, Stored (.key name) t st₁ := by
    intro t ht
    obtain ⟨field, _, hstored⟩ := mem_right_of_forall₂ hall ht
    exact ⟨field.name, hstored⟩
  cases hx : shape.index with
  | none =>
    have hev := Form.evolves_build (.union types) st₁
    simp only [Option.isSome_none, Bool.false_eq_true, if_false, List.append_nil]
    refine ⟨hev, types, fun later hs => ?_, fun _ => ?_, fun h => absurd hx h⟩
    · exact comprises_mkUnion hf₁ (h₁.grown.indexed.mpr hi) (asunder_keys hf₁ hkeys) hs
    · exact hall.imp fun _ _ h => h.later hev.grown
  | some index =>
    simp only [Option.isSome_some, if_true]
    have hrun : Action.run (mkUnion (types ++ [.string])) st₁ = (.string, st₁) :=
      run_mkUnion_string hf₁ hkeys
    unfold Leads
    rw [hrun]
    refine ⟨Evolution.refl st₁, [.string], fun later hs => ?_, fun h => ?_, fun _ => ⟨rfl, rfl⟩⟩
    · exact comprises_single (asunder_string hf₁) hs
    · cases hx.symm.trans h

/-- The keys of an object are the literals of its field names, or `string` if it has an index
signature. -/
theorem hasKeys_keyof (hf : st.Founded) (hi : st.Indexed) {t : TypeId} {shape : Shape}
    (h : st.form? t = some (.object shape)) :
    Leads (Evolves .free) (keyof t) st fun own st' => ∃ types, HasKeys shape own types st' := by
  have hkeys := hasKeys_keysOfShape hf hi shape
  unfold Leads at hkeys ⊢
  rw [run_keyof_object hf h]
  exact hkeys

namespace HasKeys

variable {shape : Shape} {own : TypeId} {types : List TypeId} (h : HasKeys shape own types st)

include h

theorem asunder (hf : st.Founded) : Asunder types st := by
  cases hi : shape.index with
  | none =>
    apply asunder_keys hf
    intro t ht
    obtain ⟨field, _, hstored⟩ := mem_right_of_forall₂ (h.named hi) ht
    exact ⟨field.name, hstored⟩
  | some index =>
    rw [(h.indexed fun hn => by cases hi.symm.trans hn).2]
    exact asunder_string hf

/-- Choosing among the keys is choosing among the names. -/
theorem mem_keyNames (hf : st.Founded) {later : Store} (hs : st.Extends later) {kept : TypeId}
    {choice : TypeId → Bool} {chosen : String → Bool}
    (hchoice : ∀ t name, Stored (.key name) t st → choice t = chosen name)
    (hkept : later.Comprises kept (types.filter choice)) (name : String) :
    name ∈ later.keyNames kept ↔ shape.index = none ∧ (∃ field ∈ shape.fields, field.name = name) ∧
      chosen name = true := by
  rw [Store.mem_keyNames (hs.founded hf) hkept]
  cases hi : shape.index with
  | none =>
    have hnamed := h.named hi
    constructor
    · rintro ⟨m, hm, hl⟩
      obtain ⟨hm, hc⟩ := List.mem_filter.mp hm
      obtain ⟨field, hfield, hstored⟩ := mem_right_of_forall₂ hnamed hm
      cases (lookup_of_key (hstored.later hs).form).symm.trans hl
      exact ⟨rfl, ⟨field, hfield, rfl⟩, hchoice m _ hstored ▸ hc⟩
    · rintro ⟨_, ⟨field, hfield, rfl⟩, hc⟩
      obtain ⟨m, hm, hstored⟩ : ∃ m ∈ types, Stored (.key field.name) m st :=
        mem_right_of_forall₂ hnamed.flip hfield
      have hc := (hchoice m _ hstored).trans hc
      exact ⟨m, List.mem_filter.mpr ⟨hm, hc⟩, lookup_of_key (hstored.later hs).form⟩
  | some index =>
    rw [(h.indexed fun hn => by cases hi.symm.trans hn).2]
    constructor
    · rintro ⟨m, hm, hl⟩
      obtain rfl := List.mem_singleton.mp (List.mem_filter.mp hm).1
      cases ((hs.founded hf).lookup .string).symm.trans hl
    · rintro ⟨hn, _⟩
      cases hn

end HasKeys

def admitsName (keys : TypeId) (name : String) : StoreM Bool := do
  isAssignable (← mkLiteral (.string name)) keys

section Admits

variable {one other : Store} {keys : TypeId} (h : st.Reached) (hk : st.Intact keys)
  (h₁ : Evolves .free st one) (h₂ : Evolves .free st other)

include h hk h₁ h₂

/-- What is known as the same in two extensions of a store is matched alike in them. -/
theorem isSome_matchPattern_twin {x y : TypeId} (hxy : Twin st one other x y) (limits : Limits) :
    ((matchPattern x keys limits).run one).1.isSome =
    ((matchPattern y keys limits).run other).1.isSome := by
  have hraised : limits.Raised limits := .inl ⟨rfl, Nat.le_refl _⟩
  rw [isSome_matchPattern, isSome_matchPattern, Bool.eq_iff_iff]
  constructor
  · exact Matcher.run_raised h.founded hraised h₁.grown (h₁.reached h) h₂.grown (h₂.reached h)
      hxy (.same hk)
  · exact Matcher.run_raised h.founded hraised h₂.grown (h₂.reached h) h₁.grown
      (h₁.reached h) hxy.symm
      (.same hk)

/-- It makes no difference when a name is matched, and at which place its literal stands. -/
theorem isSome_matchPattern_key {name : String} {x : TypeId} (hx : Stored (.key name) x one) :
    ((matchPattern x keys).run one).1.isSome = ((admitsName keys name).run other).1 := by
  have hev := Evolution.trans h₂ (Form.evolves_build (.key name) other)
  exact isSome_matchPattern_twin h hk h₁ hev (.made (fun _ hc => by cases hc) hx
    (stored_mkLiteral (h₂.reached h).shared.indexed (.string name))) .matching

/-- What was added to the store in the meantime makes no difference to which names are admitted. -/
theorem admitsName_steady (name : String) :
    ((admitsName keys name).run one).1 = ((admitsName keys name).run other).1 :=
  isSome_matchPattern_key h hk (Evolution.trans h₁ (Form.evolves_build (.key name) one)) h₂
    (stored_mkLiteral (h₁.reached h).shared.indexed (.string name))

end Admits

end Store

end TypeCalculus
