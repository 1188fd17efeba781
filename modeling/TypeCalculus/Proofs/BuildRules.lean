import TypeCalculus.Evaluator.Element
import TypeCalculus.Evaluator.Fields
import TypeCalculus.Proofs.Echoes
import TypeCalculus.Proofs.Kinds
import TypeCalculus.Proofs.Regularity

namespace TypeCalculus

theorem nodup_eraseDups {α : Type} [DecidableEq α] (xs : List α) : xs.eraseDups.Nodup := by
  obtain ⟨n, hn⟩ : ∃ n, xs.length ≤ n := ⟨_, Nat.le_refl _⟩
  induction n generalizing xs with
  | zero =>
    rw [List.length_eq_zero_iff.mp (Nat.le_zero.mp hn)]
    simp
  | succ n ih =>
    cases xs with
    | nil => simp
    | cons x xs =>
      rw [List.eraseDups_cons, List.nodup_cons]
      refine ⟨by simp [List.mem_eraseDups], ih _ ?_⟩
      exact Nat.le_trans (List.length_filter_le _ _) (Nat.le_of_succ_le_succ hn)

theorem Evaluator.mentions_rest {args result c : TypeId}
    (hc : c ∈ (Form.function { params := [restParam args], result }).mentions) :
    c = args ∨ c = result := by
  simpa [restParam, Form.mentions] using hc

namespace Store

def Container (st : Store) (t : TypeId) : Prop :=
  ∃ body, st.lookup t = some body ∧ body.isContainer = true

end Store

/-- What may be done with the types of a store, and what can be relied on in return. -/
structure BuildRules where
  /-- What is kept of a store. -/
  Good : Store → Prop
  /-- The types that may be used. -/
  Fit : Store → TypeId → Prop
  /-- How a store may change. -/
  Evolves : Store → Store → Prop
  /-- The later stores in which types that may be used read the same. -/
  Again : Store → Store → Prop
  /-- Whether objects and wrappers have to be as the checked constructors want them. -/
  Strict : Prop
  evolution : Evolution Evolves
  grown {st st' : Store} : Evolves st st' → st.Extends st'
  good {st st' : Store} : Evolves st st' → Good st → Good st'
  later {st st' : Store} {t : TypeId} : Good st → Evolves st st' → Fit st t → Fit st' t
  child {st : Store} {t c : TypeId} : Good st → Fit st t → c ∈ st.mentions t → Fit st c
  intrinsic {st : Store} {t : TypeId} : Good st → t.isIntrinsic = true → Fit st t
  before {st st' st'' : Store} : Evolves st st' → Again st' st'' → Again st st''
  wider {st st' : Store} : Again st st' → st.size ≤ st'.size
  founded {st st' : Store} : Good st → Again st st' → st.Founded
  steady {st st' : Store} {t : TypeId} : Good st → Fit st t → Again st st' → st.Steady st' t
  indexed {st : Store} : Strict → Good st → st.Indexed
  tidy {st : Store} : Strict → Good st → st.Tidy
  valid {st : Store} {t : TypeId} : Strict → Fit st t → t < st.size
  build {st : Store} {f : Form} : Good st → (∀ c ∈ f.mentions, Fit st c) →
    (Strict → f.Admissible) → Runs Again Evolves f.build st fun t st' => Fit st' t

/-- Rules for walks, which moreover reserve placeholders and give them bodies. -/
structure WalkRules extends BuildRules where
  /-- Whether placeholders may be used. -/
  Open : Prop
  /-- The later stores in which types that may be used read the same, there being no placeholders
  among them. -/
  Firm : Store → Store → Prop
  firm {st st' : Store} : Firm st st' → Again st st'
  ahead {st st' st'' : Store} : Evolves st st' → Firm st' st'' → Firm st st''
  closed {st st' : Store} : Firm st st' → ¬ Open
  opens {st : Store} {t : TypeId} : Fit st t → st.isReserved t = true → Open
  unreserved {st st' : Store} {t : TypeId} : Good st → Fit st t → Firm st st' →
    st'.isReserved t = false
  reserve {st : Store} : Open → Good st → Leads Evolves Store.reserve st fun t st' => Fit st' t
  /-- A placeholder that is younger than the store may be given the body of a type. -/
  fill {st st' : Store} {t a : TypeId} : Evolves st st' → Good st' → st.size ≤ t →
    st'.cells[t]? = some (.reserved none) → (Strict → st'.Container a) →
    Evolves st (st'.filled t ((st'.lookup a).getD (.intrinsic .never)))
  filled {st : Store} {t u : TypeId} {body : Node} : Open → Fit st u → Fit (st.filled t body) u
  part {st : Store} (id : ConditionalId) : Open → Good st → Fit st (st.conditional id).pattern ∧
    Fit st (st.conditional id).yes ∧ Fit st (st.conditional id).no

namespace BuildRules

def ofLeads (Good : Store → Prop) (Fit : Store → TypeId → Prop) (F : Store → Store → Prop)
    (evolution : Evolution F) (grown : ∀ {st st'}, F st st' → st.Extends st')
    (good : ∀ {st st'}, F st st' → Good st → Good st')
    (later : ∀ {st st' t}, Good st → F st st' → Fit st t → Fit st' t)
    (child : ∀ {st t c}, Good st → Fit st t → c ∈ st.mentions t → Fit st c)
    (intrinsic : ∀ {st t}, Good st → t.isIntrinsic = true → Fit st t)
    (build : ∀ {st} {f : Form}, Good st → (∀ c ∈ f.mentions, Fit st c) →
      Leads F f.build st fun t st' => Fit st' t) : BuildRules where
  Good := Good
  Fit := Fit
  Evolves := F
  Again _ _ := False
  Strict := False
  evolution := evolution
  grown := grown
  good := good
  later := later
  child := child
  intrinsic := intrinsic
  before _ h := h
  wider h := h.elim
  founded _ h := h.elim
  steady _ _ h := h.elim
  indexed h := h.elim
  tidy h := h.elim
  valid h := h.elim
  build hg hc _ := .of_leads (build hg hc) fun _ _ h => h

def ofKind {P : Store → TypeId → Prop} (kind : Store.Kind P)
    (infers : ∀ {st : Store} {t : TypeId} {name : String}, st.WellFormed →
      st.form? t = some (.infer name) → P st t) : BuildRules :=
  ofLeads Store.WellFormed P Store.Later inferInstance (fun h => h.grown) (fun h hw => h.sound hw)
    (fun hw h ht => kind.later hw h.grown ht) kind.child
    (fun hw ht => by
      obtain ⟨k, rfl⟩ := TypeId.isIntrinsic_iff.mp ht
      exact kind.intrinsic k hw)
    fun hw hc => kind.leads_build hw (fun _ _ => infers) hc

variable {r : BuildRules}

instance : Evolution r.Evolves := r.evolution

instance : Foregoing r.Again r.Evolves where
  before := r.before

instance {r : WalkRules} : Foregoing r.Firm r.Evolves where
  before := r.ahead

theorem mem_unionMembers {st : Store} {t m : TypeId} (hg : r.Good st) (ht : r.Fit st t)
    (hm : m ∈ st.unionMembers t) : r.Fit st m := by
  rcases Store.mem_unionMembers hm with rfl | hm
  · exact ht
  · exact r.child hg ht hm

theorem mem_node {st : Store} {t : TypeId} {node : Node} (hg : r.Good st) (ht : r.Fit st t)
    (hl : st.lookup t = some node) : ∀ c ∈ (st.form node).mentions, r.Fit st c := by
  intro c hc
  exact r.child hg ht (Store.mentions_of_form (Store.form_of_lookup hl) ▸ hc)

def Gives (r : BuildRules) (act : StoreM TypeId) (st : Store) : Prop :=
  Leads r.Evolves act st fun t st' => r.Fit st' t

section Gives

variable {st : Store} (hg : r.Good st)

include hg

/-- Of types that may be used any form may be built. -/
theorem gives (f : Form) (hc : ∀ c ∈ f.mentions, r.Fit st c) (ha : r.Strict → f.Admissible) :
    r.Gives f.build st :=
  (r.build hg hc ha).leads

theorem gives_literal (value : Literal) : r.Gives (Store.mkLiteral value) st :=
  gives hg (.literal value) (fun _ h => by cases h) fun _ => trivial

theorem gives_infer (name : String) : r.Gives (Store.mkInfer name) st :=
  gives hg (.infer name) (fun _ h => by cases h) fun _ => trivial

theorem gives_param (name : String) : r.Gives (Store.mkParam name) st :=
  gives hg (.param name) (fun _ h => by cases h) fun _ => trivial

theorem gives_array {element : TypeId} (h : r.Fit st element) :
    r.Gives (Store.mkArray element) st :=
  gives hg (.array element) (fun _ hc => List.mem_singleton.mp hc ▸ h) fun _ => trivial

theorem gives_union {types : List TypeId} (h : ∀ t ∈ types, r.Fit st t) :
    r.Gives (Store.mkUnion types) st :=
  gives hg (.union types) h fun _ => trivial

/-- A list of actions each of which does so. -/
theorem leads_each {α : Type} {f : α → StoreM TypeId} {xs : List α}
    (hf : ∀ x ∈ xs, ∀ st', r.Evolves st st' → r.Gives (f x) st') :
    Leads r.Evolves (xs.mapM f) st fun ts st' => ∀ t ∈ ts, r.Fit st' t := by
  have h : Leads r.Evolves (xs.mapM f) st fun ts st' =>
      List.Forall₂ (fun _ t => r.Fit st' t) xs ts := by
    apply Leads.mapM _ hf
    intro _ t st₁ st₂ h₁ h₂ ht
    exact r.later (r.good h₁ hg) h₂ ht
  apply h.mono
  intro ts st' _ hts t ht
  obtain ⟨_, _, h⟩ := mem_right_of_forall₂ hts ht
  exact h

/-- To distribute an action over a union keeps to the rules if the action does. -/
theorem gives_distribute {subject : TypeId} (ht : r.Fit st subject) {f : TypeId → StoreM TypeId}
    (hf : ∀ st', r.Evolves st st' → ∀ x, r.Fit st' x → r.Gives (f x) st') :
    r.Gives (Store.distribute subject f) st := by
  apply Store.leads_distribute id (A := fun _ a st' => r.Fit st' a) rfl
  · intro _ a st₁ st₂ h₁ h₂ h
    exact r.later (r.good h₁ hg) h₂ h
  · intro x hx st' h'
    exact hf st' h' x (r.later hg h' (mem_unionMembers hg ht hx))
  · exact fun _ => r.intrinsic hg rfl
  · exact fun _ _ _ _ _ h => h
  · intro ys st' h' _ hys
    apply gives_union (r.good h' hg)
    intro y hy
    obtain ⟨_, _, h⟩ := mem_right_of_forall₂ hys hy
    exact h

end Gives

section Keys

variable {keys : TypeId → StoreM TypeId}
variable (hkeys : ∀ st, r.Good st → ∀ t, r.Fit st t → r.Gives (keys t) st)
variable {st : Store} (hg : r.Good st)

section Step

include hkeys hg

theorem leads_keyMembers {t : TypeId} (ht : r.Fit st t) :
    Leads r.Evolves (Store.keyMembers keys t) st fun ts st' => ∀ k ∈ ts, r.Fit st' k := by
  apply Leads.bind (hkeys st hg t ht)
  intro all st₁ h₁ hall
  apply leads_read
  apply Leads.pure
  intro k hk
  exact mem_unionMembers (r.good h₁ hg) hall hk

theorem leads_commonKeys {ts : List TypeId} (ht : ∀ t ∈ ts, r.Fit st t) :
    Leads r.Evolves (Store.commonKeys keys ts) st fun ks st' => ∀ k ∈ ks, r.Fit st' k := by
  cases ts with
  | nil => exact Leads.pure (by simp)
  | cons first rest =>
    apply (leads_keyMembers hkeys hg (ht first (by simp))).bind
    intro own st₁ h₁ hown
    apply Leads.foldlM hown
    intro common t hm st₂ h₂ hcommon
    have hall := Evolution.trans h₁ h₂
    apply (leads_keyMembers hkeys (r.good hall hg) (r.later hg hall (ht t (by simp [hm])))).bind
    intro others st₃ h₃ _
    apply Leads.pure
    intro k hk
    exact r.later (r.good hall hg) h₃ (hcommon k (List.mem_of_mem_filter hk))

end Step

include hg

theorem leads_literals {α : Type} (xs : List α) (value : α → Literal) :
    Leads r.Evolves (xs.mapM fun x => Store.mkLiteral (value x)) st fun ts st' =>
      ∀ t ∈ ts, r.Fit st' t :=
  leads_each hg fun x _ _ h => gives_literal (r.good h hg) (value x)

theorem gives_keysOfShape (shape : Shape) : r.Gives (Store.keysOfShape shape) st := by
  apply Leads.bind (leads_literals hg shape.fields fun field => .string field.name)
  intro names st₁ h₁ hnames
  apply gives_union (r.good h₁ hg)
  intro t ht
  rcases List.mem_append.mp ht with ht | ht
  · exact hnames t ht
  · split at ht
    · obtain rfl := List.mem_singleton.mp ht
      exact r.intrinsic (r.good h₁ hg) rfl
    · simp at ht

theorem gives_keysOfTuple (length : Nat) : r.Gives (Store.keysOfTuple length) st := by
  apply Leads.bind (leads_literals hg (List.range length) fun position =>
    .string (toString position))
  intro names st₁ h₁ hnames
  apply gives_union (r.good h₁ hg)
  intro t ht
  rcases List.mem_append.mp ht with ht | ht
  · exact hnames t ht
  · obtain rfl := List.mem_singleton.mp ht
    exact r.intrinsic (r.good h₁ hg) rfl

include hkeys in
theorem gives_keysStep {t : TypeId} (ht : r.Fit st t) : r.Gives (Store.keysStep keys t) st := by
  unfold Store.keysStep
  apply leads_read
  split
  · apply gives_union hg
    intro u hu
    simp only [List.mem_cons, List.not_mem_nil, or_false] at hu
    rcases hu with rfl | rfl | rfl <;> exact r.intrinsic hg rfl
  · split
    · exact gives_keysOfShape hg _
    · rename_i members hl
      apply (leads_commonKeys hkeys hg (mem_node hg ht hl)).bind
      intro common st₁ h₁ hcommon
      exact gives_union (r.good h₁ hg) hcommon
    · rename_i members hl
      apply (leads_each hg fun m hm st' h =>
        hkeys st' (r.good h hg) m (r.later hg h (mem_node hg ht hl m hm))).bind
      intro ks st₁ h₁ hks
      exact gives_union (r.good h₁ hg) hks
    · exact Leads.pure (r.intrinsic hg rfl)
    · exact gives_keysOfTuple hg _
    · exact Leads.pure (r.intrinsic hg rfl)

/-- Every level of the recursion over members keeps to the rules. -/
theorem gives_keysWithin (room : Nat) {t : TypeId} (ht : r.Fit st t) :
    r.Gives (descend Store.keysStep (fun _ => return .never) room t) st := by
  apply descend_induction (motive := fun f => ∀ st, r.Good st → ∀ t, r.Fit st t → r.Gives (f t) st)
    _ _ room st hg t ht
  · intro st hg _ _
    exact Leads.pure (r.intrinsic hg rfl)
  · intro f hf st hg t ht
    exact gives_keysStep hf hg ht

theorem gives_keyof {t : TypeId} (ht : r.Fit st t) : r.Gives (Store.keyof t) st :=
  leads_read (gives_keysWithin hg _ ht)

theorem gives_valueOfField {shape : Shape} (hs : ∀ t ∈ shape.types, r.Fit st t) (name : String) :
    r.Gives (Store.valueOfField shape name) st := by
  unfold Store.valueOfField
  split
  · rename_i field hfield
    have hfit : r.Fit st field.type := hs _ (List.mem_append_left _
      (List.mem_map_of_mem (List.mem_of_find?_eq_some hfield)))
    split
    · apply gives_union hg
      intro t ht
      rcases List.mem_pair.mp ht with rfl | rfl
      · exact hfit
      · exact r.intrinsic hg rfl
    · exact Leads.pure hfit
  · rename_i index _ hindex
    exact Leads.pure (hs _ (List.mem_append_right _
      (List.mem_map_of_mem (Option.mem_toList.mpr hindex))))
  · exact Leads.pure (r.intrinsic hg rfl)

theorem fit_elementAt {slots : List Slot} (hs : ∀ slot ∈ slots, r.Fit st slot.type)
    (position : Nat) : r.Fit st (Store.elementAt slots position) := by
  unfold Store.elementAt
  split
  · rename_i slot hslot
    split
    · exact r.intrinsic hg rfl
    · exact hs slot (List.mem_of_getElem? hslot)
  · exact r.intrinsic hg rfl

/-- What an object holds under one key may be used if the object may. -/
theorem gives_valueAt {object : TypeId} (ho : r.Fit st object) (key : TypeId) :
    r.Gives (Store.valueAt object key) st := by
  have hparts {node : Node} (hl : st.lookup object = some node) := mem_node hg ho hl
  have hnever : r.Fit st .never := r.intrinsic hg rfl
  unfold Store.valueAt
  apply leads_read
  split
  · rename_i id name hl _
    exact gives_valueOfField hg (hparts hl) name
  · rename_i hl _
    split
    · exact gives_union hg (hparts hl)
    · exact Leads.pure hnever
  · rename_i hl _
    exact Leads.pure (hparts hl _ (by simp [Store.form, Form.mentions]))
  · rename_i hl _
    apply Leads.pure
    split
    · exact hparts hl _ (by simp [Store.form, Form.mentions])
    · exact hnever
  · rename_i id value hl _
    apply Leads.pure
    cases value.position? with
    | none => exact hnever
    | some position =>
      exact fit_elementAt hg (fun slot hm => hparts hl _ (List.mem_map_of_mem hm)) position
  · rename_i hl _
    split
    · exact gives_union hg (hparts hl)
    · exact Leads.pure hnever
  · exact Leads.pure hnever

theorem gives_indexAccess {object key : TypeId} (ho : r.Fit st object) (hk : r.Fit st key) :
    r.Gives (Store.indexAccess object key) st := by
  unfold Store.indexAccess
  split
  · exact Leads.pure (r.intrinsic hg rfl)
  · apply gives_distribute hg hk
    intro st₁ h₁ key _
    apply gives_distribute (r.good h₁ hg) (r.later hg h₁ ho)
    intro st₂ h₂ object hobject
    exact gives_valueAt (r.good h₂ (r.good h₁ hg)) hobject key

theorem gives_valueOf {t : TypeId} (ht : r.Fit st t) : r.Gives (Store.valueOf t) st := by
  apply Leads.bind (gives_keyof hg ht)
  intro keys st₁ h₁ hkeys
  exact gives_indexAccess (r.good h₁ hg) (r.later hg h₁ ht) hkeys

/-- Each name is given one field. -/
theorem gives_record (names : List String) {value : TypeId} (hv : r.Fit st value) :
    r.Gives (Evaluator.record names value) st := by
  apply gives hg (.object _)
  · intro c hc
    simp only [Form.mentions, Shape.types, List.map_map, Option.toList_none, List.map_nil,
      List.append_nil, List.mem_map] at hc
    obtain ⟨name, _, rfl⟩ := hc
    exact hv
  · intro _
    show Shape.Distinct _
    unfold Shape.Distinct
    rw [List.map_map]
    exact (List.map_id _).symm ▸ nodup_eraseDups names

end Keys

section Patterns

variable {st : Store} (hg : r.Good st)

include hg

theorem gives_restFunction {args result : TypeId} (ha : r.Fit st args) (hr : r.Fit st result) :
    r.Gives (Evaluator.restFunction args result) st := by
  refine gives hg (.function _) (fun c hc => ?_) fun _ => trivial
  rcases Evaluator.mentions_rest hc with rfl | rfl
  · exact ha
  · exact hr

theorem gives_restConstructor {args result : TypeId} (ha : r.Fit st args) (hr : r.Fit st result) :
    r.Gives (Evaluator.restConstructor args result) st := by
  refine gives hg (.constructor { params := [Evaluator.restParam args], result })
    (fun c hc => ?_) fun _ => trivial
  rcases Evaluator.mentions_rest hc with rfl | rfl
  · exact ha
  · exact hr

theorem gives_accepting {t : TypeId} (ht : r.Fit st t) : r.Gives (Evaluator.accepting t) st := by
  refine gives hg (.function _) (fun c hc => ?_) fun _ => trivial
  simp only [Form.mentions, Option.toList_none, List.map_cons, List.map_nil, List.nil_append,
    List.cons_append, List.mem_cons, List.not_mem_nil, or_false] at hc
  rcases hc with rfl | rfl
  · exact ht
  · exact r.intrinsic hg rfl

theorem gives_openSignature : r.Gives Evaluator.openSignature st := by
  apply Leads.bind (gives_infer hg "A")
  intro a st₁ h₁ ha
  apply Leads.bind (gives_infer (r.good h₁ hg) "R")
  intro result st₂ h₂ hr
  exact gives_restFunction (r.good h₂ (r.good h₁ hg)) (r.later (r.good h₁ hg) h₂ ha) hr

end Patterns

end BuildRules

end TypeCalculus
