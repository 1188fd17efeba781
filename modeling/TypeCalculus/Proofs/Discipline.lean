import TypeCalculus.Proofs.BuildRules
import TypeCalculus.Proofs.Decision

namespace TypeCalculus

open Store (Made)

/-- What the users of a store hold themselves to: to nothing; to using only what was handed out to
them; moreover to building types by the action for their kind, never from raw nodes; or to using
only types that reach no placeholder. -/
inductive Discipline
  | free | given | typed | solid
deriving DecidableEq

def Store.Linked (st : Store) : Prop :=
  ∀ m ∈ st.mappings.items, ∀ id, m.value = .conditional id → id < st.conditionals.items.length

namespace Discipline

variable (d : Discipline)

structure Good (st : Store) : Prop where
  anchored : d ≠ .free → st.Anchored
  linked : d ≠ .free → st.Linked
  tidy : d = .typed → st.Tidy

structure Fit (st : Store) (t : TypeId) : Prop where
  valid : d ≠ .free → t < st.size
  solid : d = .solid → st.Solid t

/-- The store was extended by primitive actions, and what the discipline keeps was kept. -/
structure Evolves (st st' : Store) : Prop where
  grown : st.Extends st'
  reached : st.Reached → st'.Reached
  good : d.Good st → d.Good st'

instance : Evolution (Evolves d) where
  refl st := ⟨.refl st, id, id⟩
  trans h h' := ⟨h.grown.trans h'.grown, fun hr => h'.reached (h.reached hr),
    fun hg => h'.good (h.good hg)⟩

/-- The later stores in which types that may be used read the same: all wider stores if the types
are solid, and the extensions otherwise. -/
structure Again (st st' : Store) : Prop where
  held : d ≠ .free
  widens : st.Widens st'
  grown : d ≠ .solid → st.Extends st'

def Firm (st st' : Store) : Prop := d = .solid ∧ st.Widens st'

instance : Foregoing d.Again (Evolves d) where
  before h hw := ⟨hw.held, h.grown.widens.trans hw.widens, fun hd => h.grown.trans (hw.grown hd)⟩

instance : Foregoing d.Firm (Evolves d) where
  before h hw := ⟨hw.1, h.grown.widens.trans hw.2⟩

structure Built (f : Form) (t : TypeId) (st : Store) : Prop where
  made : st.Indexed → Made f t st
  fit : d.Fit st t

variable {d} {st st' : Store} {t : TypeId}

theorem Good.indexed (hg : d.Good st) (hd : d ≠ .free) : st.Indexed := (hg.anchored hd).indexed

theorem Built.typed {f : Form} (h : Built .typed f t st) (hg : Good .typed st) : Made f t st :=
  h.made (hg.indexed fun hd => by cases hd)

theorem Good.wellFormed (hg : Good .typed st) : st.WellFormed :=
  (hg.tidy rfl).wellFormed (hg.anchored fun h => by cases h)

theorem good_free (st : Store) : Good .free st :=
  ⟨fun h => absurd rfl h, fun h => absurd rfl h, fun h => by cases h⟩

theorem fit_free (st : Store) (t : TypeId) : Fit .free st t :=
  ⟨fun h => absurd rfl h, fun h => by cases h⟩

theorem Fit.kept (hf : d.Fit st t) (hg : d.Good st) (h : st.Extends st') : d.Fit st' t where
  valid hd := Nat.lt_of_lt_of_le (hf.valid hd) h.size
  solid hd := (hf.solid hd).widens (hg.anchored (by simp [hd])) h.widens

theorem Fit.later (hf : d.Fit st t) (hg : d.Good st) (h : d.Evolves st st') : d.Fit st' t :=
  hf.kept hg h.grown

theorem Fit.child (hf : d.Fit st t) (hg : d.Good st) {c : TypeId} (hc : c ∈ st.mentions t) :
    d.Fit st c where
  valid hd := (hg.anchored hd).inside hc
  solid hd := (hf.solid hd).child hc

theorem Good.intrinsic (hg : d.Good st) (ht : t.isIntrinsic = true) : d.Fit st t := by
  obtain ⟨kind, rfl⟩ := TypeId.isIntrinsic_iff.mp ht
  constructor
  · intro hd
    exact ((hg.anchored hd).founded.solid kind).lt_size
  · intro hd
    exact (hg.anchored (by simp [hd])).founded.solid kind

theorem Firm.again (h : d.Firm st st') : d.Again st st' where
  held := by simp [h.1]
  widens := h.2
  grown hd := absurd h.1 hd

/-- A type that may be used reads the same in the stores that count as later. -/
theorem Fit.steady (hf : d.Fit st t) (hg : d.Good st) (h : d.Again st st') : st.Steady st' t := by
  by_cases hd : d = .solid
  · exact (hf.solid hd).steady (hg.anchored h.held) h.widens
  · exact (hg.anchored h.held).steady (h.grown hd) (hf.valid h.held)

theorem Fit.mem_unionMembers (hf : d.Fit st t) (hg : d.Good st) {m : TypeId}
    (hm : m ∈ st.unionMembers t) : d.Fit st m := by
  rcases Store.mem_unionMembers hm with rfl | hm
  · exact hf
  · exact hf.child hg hm

theorem Fit.mem_intersectionMembers (hf : d.Fit st t) (hg : d.Good st) {m : TypeId}
    (hm : m ∈ st.intersectionMembers t) : d.Fit st m := by
  rcases Store.mem_intersectionMembers hm with rfl | hm
  · exact hf
  · exact hf.child hg hm

end Discipline

namespace Store

variable {st st' : Store}

/-- A store stays anchored if its new nodes mention older types and its new conditionals types of
the store. -/
theorem Anchored.extend (ha : st.Anchored) (h : st.Extends st')
    (hnew : ∀ t node, st.size ≤ t → st'.lookup t = some node →
      st'.Placed node ∧ ∀ c ∈ st'.children node, c < t)
    (hcond : ∀ c ∈ st'.conditionals.items, c ∈ st.conditionals.items ∨
      c.pattern < st'.size ∧ c.yes < st'.size ∧ c.no < st'.size) : st'.Anchored where
  founded := h.founded ha.founded
  indexed := h.indexed.mpr ha.indexed
  placed {t node} hn := by
    rcases Nat.lt_or_ge t st.size with ht | ht
    · rw [h.lookup ht] at hn
      exact h.widens.placed (ha.placed hn)
    · exact (hnew t node ht hn).1
  inside {t c} hc := by
    rcases Nat.lt_or_ge t st.size with ht | ht
    · rw [ha.mentions_extends h ht] at hc
      exact Nat.lt_of_lt_of_le (ha.inside hc) h.size
    · have hlt := lt_size_of_mentions hc
      unfold mentions at hc
      split at hc
      · rename_i node hn
        exact Nat.lt_trans ((hnew t node ht hn).2 c hc) hlt
      · simp at hc
  below {t c} hr hc := by
    rcases Nat.lt_or_ge t st.size with ht | ht
    · rw [h.isReserved ht] at hr
      rw [ha.mentions_extends h ht] at hc
      exact ha.below hr hc
    · unfold mentions at hc
      split at hc
      · rename_i node hn
        exact (hnew t node ht hn).2 c hc
      · simp at hc
  conditional {c} hc := by
    rcases hcond c hc with hc | hc
    · obtain ⟨hp, hy, hn⟩ := ha.conditional hc
      exact ⟨Nat.lt_of_lt_of_le hp h.size, Nat.lt_of_lt_of_le hy h.size,
        Nat.lt_of_lt_of_le hn h.size⟩
    · exact hc

theorem lookup_of_cells (hcells : st'.cells = st.cells) {t : TypeId} (ht : st.size ≤ t) :
    st'.lookup t = none := by
  have hge : st'.cells.length ≤ t := hcells ▸ ht
  simp [lookup, List.getElem?_eq_none hge]

theorem Anchored.ofTables (ha : st.Anchored) (h : st.Extends st') (hcells : st'.cells = st.cells)
    (hcond : ∀ c ∈ st'.conditionals.items, c ∈ st.conditionals.items ∨
      c.pattern < st.size ∧ c.yes < st.size ∧ c.no < st.size) : st'.Anchored := by
  apply ha.extend h
  · intro t node ht hn
    cases (lookup_of_cells hcells ht).symm.trans hn
  · rw [size, hcells]
    exact hcond

theorem lookup_reserve {t : TypeId} (ht : st.size ≤ t) : (reserve.run st).2.lookup t = none := by
  have hcells : (reserve.run st).2.cells = st.cells ++ [.reserved none] := rfl
  rcases Nat.eq_or_lt_of_le ht with rfl | hlt
  · simp [lookup, hcells, size, Cell.node?]
  · have hge : (reserve.run st).2.cells.length ≤ t := by
      rw [hcells, List.length_append]
      exact hlt
    simp [lookup, List.getElem?_eq_none hge]

theorem Anchored.reserve (ha : st.Anchored) : (Store.reserve.run st).2.Anchored := by
  apply ha.extend (extends_reserve st)
  · intro t node ht hn
    cases (lookup_reserve ht).symm.trans hn
  · exact fun c hc => .inl hc

/-- A store stays tidy if its new nodes are regular and its new shapes name no field twice. -/
theorem Tidy.extend (ht : st.Tidy) (ha : st.Anchored) (h : st.Extends st')
    (hnew : ∀ t node, st.size ≤ t → st'.lookup t = some node →
      st'.isReserved t = false ∧ st'.Regular (st'.form node))
    (hshape : ∀ shape ∈ st'.shapes.items, shape ∈ st.shapes.items ∨ shape.Distinct) : st'.Tidy where
  container {t node} hr hn := by
    rcases Nat.lt_or_ge t st.size with hlt | hge
    · rw [h.isReserved hlt] at hr
      rw [h.lookup hlt] at hn
      exact ht.container hr hn
    · rw [(hnew t node hge hn).1] at hr
      cases hr
  regular {t f} hf := by
    rcases Nat.lt_or_ge t st.size with hlt | hge
    · rw [ha.form_extends h hlt] at hf
      apply (ht.regular hf).grows h.grows
      intro c hc
      exact ha.inside (mentions_of_form hf ▸ hc)
    · obtain ⟨node, hn, rfl⟩ := lookup_of_form hf
      exact (hnew t node hge hn).2
  shapes {shape} hm := by
    rcases hshape shape hm with hm | hd
    · exact ht.shapes hm
    · exact hd

section Filled

variable {t : TypeId} {body : Node} (hc : st.cells[t]? = some (.reserved none))

include hc

theorem widens_filled : st.Widens (st.filled t body) where
  interned {u node} hu := by
    have hne : u ≠ t := by
      rintro rfl
      cases hc.symm.trans hu
    rw [filled_cell_ne hne, hu]
  reserved {u} hu := by rw [filled_isReserved hc, hu]
  keys := id
  lists := .refl _
  tuples := .refl _
  shapes := .refl _
  signatures := .refl _

theorem Anchored.filled (ha : st.Anchored) (hp : st.Placed body)
    (hm : ∀ c ∈ st.children body, c < st.size) : (st.filled t body).Anchored where
  founded := (widens_filled hc).founded ha.founded
  indexed := (indexed_filled hc).mpr ha.indexed
  placed {u node} hn := by
    by_cases h : u = t
    · subst h
      cases (filled_lookup hc).symm.trans hn
      exact (widens_filled hc).placed hp
    · simp only [lookup, filled_cell_ne h] at hn
      exact (widens_filled hc).placed (ha.placed hn)
  inside {u c} hmem := by
    rw [filled_size]
    by_cases h : u = t
    · subst h
      rw [filled_mentions hc, form_mentions] at hmem
      exact hm c hmem
    · exact ha.inside (filled_mentions_ne h ▸ hmem)
  below {u c} hr hmem := by
    rw [filled_isReserved hc] at hr
    have h : u ≠ t := by
      rintro rfl
      simp [isReserved, hc] at hr
    exact ha.below hr (filled_mentions_ne h ▸ hmem)
  conditional h := by
    rw [filled_size]
    exact ha.conditional h

/-- A placeholder may be given a regular body, which is neither a union nor an intersection. -/
theorem Tidy.filled (ht : st.Tidy) (ha : st.Anchored) (hk : body.isContainer = true)
    (hr : st.Regular (st.form body)) (hm : ∀ c ∈ st.children body, c < st.size) :
    (st.filled t body).Tidy where
  container {u node} hres hn := by
    by_cases h : u = t
    · subst h
      cases (filled_lookup hc).symm.trans hn
      exact hk
    · simp only [lookup, filled_cell_ne h] at hn
      exact ht.container (filled_isReserved hc u ▸ hres) hn
  regular {u f} hf := by
    have hgrows := grows_filled hc hk
    by_cases h : u = t
    · subst h
      cases (filled_form hc).symm.trans hf
      apply hr.grows hgrows
      intro c hmem
      exact hm c (form_mentions st body ▸ hmem)
    · rw [filled_form_ne h] at hf
      apply (ht.regular hf).grows hgrows
      intro c hmem
      exact ha.inside (mentions_of_form hf ▸ hmem)
  shapes := ht.shapes

end Filled

end Store

namespace Discipline

variable {d : Discipline} {st st' : Store}

/-- Tables may grow, if what is new in them is as it should be. -/
theorem Evolves.ofTables (h : st.Extends st') (hcells : st'.cells = st.cells)
    (hreached : st.Reached → st'.Reached)
    (hcond : d ≠ .free → ∀ c ∈ st'.conditionals.items, c ∈ st.conditionals.items ∨
      c.pattern < st.size ∧ c.yes < st.size ∧ c.no < st.size)
    (hmap : d ≠ .free → ∀ m ∈ st'.mappings.items, m ∈ st.mappings.items ∨
      ∀ id, m.value = .conditional id → id < st.conditionals.items.length)
    (hshape : d = .typed → ∀ s ∈ st'.shapes.items, s ∈ st.shapes.items ∨ s.Distinct) :
    d.Evolves st st' := by
  refine ⟨h, hreached, fun hg => ⟨fun hd => ?_, fun hd m hm id hv => ?_, fun hd => ?_⟩⟩
  · exact (hg.anchored hd).ofTables h hcells (hcond hd)
  · apply Nat.lt_of_lt_of_le _ h.conditionals.items.length_le
    rcases hmap hd m hm with hm | hm
    · exact hg.linked hd m hm id hv
    · exact hm id hv
  · apply (hg.tidy hd).extend (hg.anchored (by simp [hd])) h
    · intro t node ht hn
      cases (Store.lookup_of_cells hcells ht).symm.trans hn
    · exact hshape hd

/-- An empty placeholder that is younger than the store may be given a body. -/
theorem Evolves.filled {t : TypeId} {body : Node} (h : d.Evolves st st') (hg : d.Good st')
    (ht : st.size ≤ t) (hc : st'.cells[t]? = some (.reserved none))
    (hp : d ≠ .free → st'.Placed body) (hm : d ≠ .free → ∀ c ∈ st'.children body, c < st'.size)
    (hk : d = .typed → body.isContainer = true ∧ st'.Regular (st'.form body)) :
    d.Evolves st (st'.filled t body) := by
  refine ⟨h.grown.filled hc ht, fun hr => ?_, fun _ => ⟨fun hd => ?_, hg.linked, fun hd => ?_⟩⟩
  · have hdefine := (h.reached hr).define t body
    rw [Store.run_define_empty hc] at hdefine
    exact hdefine
  · exact (hg.anchored hd).filled hc (hp hd) (hm hd)
  · have hfree : d ≠ .free := by simp [hd]
    obtain ⟨hk, hr⟩ := hk hd
    exact (hg.tidy hd).filled hc (hg.anchored hfree) hk hr (hm hfree)

/-- An empty placeholder that is younger than the store may be given the body of any type, or of any
container where placeholders stand for nothing else. -/
theorem Evolves.copied {t a : TypeId} (h : d.Evolves st st') (hg : d.Good st') (ht : st.size ≤ t)
    (hc : st'.cells[t]? = some (.reserved none)) (hk : d = .typed → st'.Container a) :
    d.Evolves st (st'.filled t ((st'.lookup a).getD (.intrinsic .never))) := by
  cases hl : st'.lookup a with
  | none =>
    show d.Evolves st (st'.filled t (.intrinsic .never))
    refine h.filled hg ht hc (fun _ => trivial) (fun _ c hm => by simp [Store.children] at hm) ?_
    intro hd
    obtain ⟨body, hb, _⟩ := hk hd
    cases hl.symm.trans hb
  | some node =>
    apply h.filled hg ht hc
    · exact fun hd => (hg.anchored hd).placed hl
    · intro hd c hm
      apply (hg.anchored hd).inside (t := a)
      rw [Store.mentions, hl]
      exact hm
    · intro hd
      obtain ⟨body, hb, hcontainer⟩ := hk hd
      cases hl.symm.trans hb
      exact ⟨hcontainer, (hg.tidy hd).regular (Store.form_of_lookup hl)⟩

theorem Fit.filled {t u : TypeId} {body : Node} (h : d.Fit st t) (hd : d ≠ .solid) :
    d.Fit (st.filled u body) t where
  valid hfree := by
    rw [Store.filled_size]
    exact h.valid hfree
  solid hsolid := absurd hsolid hd

section Primitives

/-- Interning in a table finds in every wider store what it has put there. -/
theorem runs_table {α : Type} [DecidableEq α] {act : StoreM Nat} {value : α}
    (read : Store → Table α) (write : Store → Table α → Store)
    (hrun : ∀ st, act.run st = (((read st).intern value).1, write st ((read st).intern value).2))
    (hread : ∀ st table, read (write st table) = table) (hwrite : ∀ st, write st (read st) = st)
    (hwide : ∀ {st st' : Store}, st.Widens st' → (read st).Extends (read st'))
    (hindexed : ∀ {st : Store}, st.Indexed → (read st).Indexed)
    (hev : d.Evolves st (write st ((read st).intern value).2)) :
    Runs d.Again d.Evolves act st fun id st' => st'.Indexed → (read st').get? id = some value := by
  have hfirst : Action.run act st = _ := hrun st
  refine ⟨?_, fun st' hw => ?_⟩
  · unfold Leads
    rw [hfirst]
    refine ⟨hev, fun hi => ?_⟩
    show (read (write st ((read st).intern value).2)).get? _ = some value
    have hi := hindexed hi
    rw [hread] at hi ⊢
    exact (hi _ _).mp (Table.index_intern (read st) value)
  · have hagain : (read st').intern value = (((read st).intern value).1, read st') := by
      rw [hfirst] at hw
      have hextends : (read (write st ((read st).intern value).2)).Extends (read st') :=
        hwide hw.widens
      rw [hread] at hextends
      exact Table.intern_again hextends
    rw [hfirst]
    show act.run st' = (_, st')
    rw [hrun, hagain, hwrite]

theorem runs_internList (members : List TypeId) :
    Runs d.Again d.Evolves (Store.internList members) st fun id st' =>
      st'.Indexed → st'.lists.get? id = some members :=
  runs_table Store.lists (fun st lists => { st with lists }) (fun _ => rfl) (fun _ _ => rfl)
    (fun _ => rfl) (fun h => h.lists) (fun h => h.lists)
    (.ofTables (Store.extends_internList members st) rfl (.internList members)
      (fun _ _ h => .inl h) (fun _ _ h => .inl h) fun _ _ h => .inl h)

theorem runs_internSlots (slots : List Slot) :
    Runs d.Again d.Evolves (Store.internSlots slots) st fun id st' =>
      st'.Indexed → st'.tuples.get? id = some slots :=
  runs_table Store.tuples (fun st tuples => { st with tuples }) (fun _ => rfl) (fun _ _ => rfl)
    (fun _ => rfl) (fun h => h.tuples) (fun h => h.tuples)
    (.ofTables (Store.extends_internSlots slots st) rfl (.internSlots slots)
      (fun _ _ h => .inl h) (fun _ _ h => .inl h) fun _ _ h => .inl h)

theorem runs_internShape {shape : Shape} (hd : d = .typed → shape.Distinct) :
    Runs d.Again d.Evolves (Store.internShape shape) st fun id st' =>
      st'.Indexed → st'.shapes.get? id = some shape := by
  apply runs_table Store.shapes (fun st shapes => { st with shapes }) (fun _ => rfl)
    (fun _ _ => rfl)
    (fun _ => rfl) (fun h => h.shapes) fun h => h.shapes
  apply Evolves.ofTables (Store.extends_internShape shape st) rfl (.internShape shape)
  · exact fun _ _ h => .inl h
  · exact fun _ _ h => .inl h
  · intro ht s hs
    rcases Table.mem_intern hs with hs | rfl
    · exact .inl hs
    · exact .inr (hd ht)

theorem runs_internSignature (signature : Signature) :
    Runs d.Again d.Evolves (Store.internSignature signature) st fun id st' =>
      st'.Indexed → st'.signatures.get? id = some signature :=
  runs_table Store.signatures (fun st signatures => { st with signatures }) (fun _ => rfl)
    (fun _ _ => rfl) (fun _ => rfl) (fun h => h.signatures) (fun h => h.signatures)
    (.ofTables (Store.extends_internSignature signature st) rfl (.internSignature signature)
      (fun _ _ h => .inl h) (fun _ _ h => .inl h) fun _ _ h => .inl h)

/-- A conditional whose parts are there may be interned. -/
theorem leads_internConditional {c : Conditional}
    (hc : d ≠ .free → c.pattern < st.size ∧ c.yes < st.size ∧ c.no < st.size) :
    Leads d.Evolves (Store.internConditional c) st fun id st' =>
      st'.Indexed → st'.conditionals.get? id = some c := by
  refine ⟨?_, fun hi => (hi.conditionals _ _).mp (Table.index_intern st.conditionals c)⟩
  apply Evolves.ofTables (Store.extends_internConditional c st) rfl (.internConditional c)
  · intro hd c' hc'
    rcases Table.mem_intern hc' with hc' | rfl
    · exact .inl hc'
    · exact .inr (hc hd)
  · exact fun _ _ h => .inl h
  · exact fun _ _ h => .inl h

theorem leads_internMapping {m : Mapping}
    (hm : d ≠ .free → ∀ id, m.value = .conditional id → id < st.conditionals.items.length) :
    Leads d.Evolves (Store.internMapping m) st fun id st' =>
      st'.Indexed → st'.mappings.get? id = some m := by
  refine ⟨?_, fun hi => (hi.mappings _ _).mp (Table.index_intern st.mappings m)⟩
  apply Evolves.ofTables (Store.extends_internMapping m st) rfl (.internMapping m)
  · exact fun _ _ h => .inl h
  · intro hd m' hm'
    rcases Table.mem_intern hm' with hm' | rfl
    · exact .inl hm'
    · exact .inr (hm hd)
  · exact fun _ _ h => .inl h

theorem leads_reserve (d : Discipline) (st : Store) : Leads d.Evolves Store.reserve st fun t st' =>
    t = st.size ∧ st'.cells[t]? = some (.reserved none) := by
  have hext := Store.extends_reserve st
  have hcells : (Store.reserve.run st).2.cells = st.cells ++ [.reserved none] := rfl
  have hcell : (Store.reserve.run st).2.cells[st.size]? = some (.reserved none) := by
    simp [hcells, Store.size]
  refine leads_run ⟨hext, .reserve, fun hg => ⟨fun hd => (hg.anchored hd).reserve, hg.linked,
    fun hd => ?_⟩⟩ ⟨rfl, hcell⟩
  apply (hg.tidy hd).extend (hg.anchored (by simp [hd])) hext
  · intro t node ht hn
    cases (Store.lookup_reserve ht).symm.trans hn
  · exact fun s hs => .inl hs

section Intern

variable {node : Node} (hn : ∀ kind, node ≠ .intrinsic kind)

include hn

theorem echo_intern (d : Discipline) (st : Store) : Echo d.Again (Store.intern node) st := by
  intro st' h
  show (Store.intern node).run st' = (((Store.intern node).run st).1, st')
  rw [Store.run_intern hn st', h.widens.keys (Store.keys_intern hn st)]

/-- Where an interned node stands. -/
theorem cell_intern (hi : ((Store.intern node).run st).2.Indexed) :
    ((Store.intern node).run st).2.cells[((Store.intern node).run st).1]? = some (.interned node) :=
  (hi.keys _ _).mp (Store.keys_intern hn st)

/-- Interning adds the node at the end if anything. -/
theorem intern_cases (st : Store) :
    let r := (Store.intern node).run st
    r.2 = st ∨ r.1 = st.size ∧ r.2 = st.add node := by
  rw [Store.run_intern hn]
  split
  · exact .inl rfl
  · exact .inr ⟨rfl, rfl⟩

/-- A cell that interning has made holds the node. -/
theorem intern_new {t : TypeId} {other : Node} (ht : st.size ≤ t)
    (hl : ((Store.intern node).run st).2.lookup t = some other) :
    ((Store.intern node).run st).2.cells[t]? = some (.interned node) ∧ t = st.size ∧
    other = node := by
  have hlt : t < ((Store.intern node).run st).2.size := Store.lt_size_of_lookup (by simp [hl])
  have hcases := intern_cases hn st
  generalize (Store.intern node).run st = r at hl hlt hcases ⊢
  rcases hcases with he | ⟨hplace, he⟩
  · rw [he] at hlt
    exact absurd ht (Nat.not_le_of_lt hlt)
  · have hsize : r.2.size = st.size + 1 := by simp [he, Store.add, Store.size]
    rw [hsize] at hlt
    have ht : t = st.size := Nat.le_antisymm (Nat.le_of_lt_succ hlt) ht
    have hcell : r.2.cells[t]? = some (.interned node) := by simp [he, ht, Store.add, Store.size]
    simp only [Store.lookup, hcell, Option.bind_some, Cell.node?, Option.some.injEq] at hl
    exact ⟨hcell, ht, hl.symm⟩

/-- Interning touches no table. -/
theorem intern_tables (st : Store) : ((Store.intern node).run st).2 = { st with
    cells := ((Store.intern node).run st).2.cells
    keys := ((Store.intern node).run st).2.keys } := by
  rcases intern_cases hn st with he | ⟨_, he⟩
  · rw [he]
  · rw [he]
    rfl

theorem anchored_intern (ha : st.Anchored) (hp : st.Placed node)
    (hc : ∀ c ∈ st.children node, c < st.size) : ((Store.intern node).run st).2.Anchored := by
  have hext := Store.extends_intern node st
  apply ha.extend hext
  · intro t other ht hl
    obtain ⟨_, rfl, rfl⟩ := intern_new hn ht hl
    refine ⟨hext.widens.placed hp, fun c hm => hc c ?_⟩
    rw [intern_tables hn] at hm
    exact hm
  · intro c hm
    rw [intern_tables hn] at hm
    exact .inl hm

/-- What is asked of a node that is to be interned: no more than the discipline wants. -/
theorem evolves_intern (hp : d ≠ .free → st.Placed node)
    (hc : d ≠ .free → ∀ c ∈ st.children node, c < st.size)
    (hr : d = .typed → st.Regular (st.form node)) :
    d.Evolves st ((Store.intern node).run st).2 := by
  have hext := Store.extends_intern node st
  have htables := intern_tables hn st
  refine ⟨hext, .intern node, fun hg => ⟨fun hd => ?_, fun hd => ?_, fun hd => ?_⟩⟩
  · exact anchored_intern hn (hg.anchored hd) (hp hd) (hc hd)
  · rw [htables]
    exact hg.linked hd
  · have hfree : d ≠ .free := by simp [hd]
    apply (hg.tidy hd).extend (hg.anchored hfree) hext
    · intro t other ht hl
      obtain ⟨hcell, rfl, rfl⟩ := intern_new hn ht hl
      refine ⟨by simp [Store.isReserved, hcell], ?_⟩
      rw [hext.widens.form (hp hfree)]
      apply (hr hd).grows hext.grows
      intro c hmem
      exact hc hfree c (Store.form_mentions st other ▸ hmem)
    · intro s hs
      rw [htables] at hs
      exact .inl hs

theorem runs_intern (hg : d.Good st) {f : Form}
    (hf : st.Indexed → st.Placed node ∧ st.form node = f) (hc : ∀ c ∈ f.mentions, d.Fit st c)
    (hr : d = .typed → st.Regular f) :
    Runs d.Again d.Evolves (Store.intern node) st (d.Built f) := by
  have hform (hd : d ≠ .free) := hf (hg.indexed hd)
  have hev : d.Evolves st ((Store.intern node).run st).2 := by
    apply evolves_intern hn fun hd => (hform hd).1
    · intro hd c hm
      rw [← Store.form_mentions, (hform hd).2] at hm
      exact (hc c hm).valid hd
    · intro hd
      rw [(hform (by simp [hd])).2]
      exact hr hd
  have hmade (hi : ((Store.intern node).run st).2.Indexed) :
      Made f ((Store.intern node).run st).1 ((Store.intern node).run st).2 := by
    obtain ⟨hp, hform⟩ := hf (hev.grown.indexed.mp hi)
    rw [← hform, ← hev.grown.widens.form hp]
    exact Store.made_at (cell_intern hn hi)
  have hindexed (hd : d ≠ .free) : ((Store.intern node).run st).2.Indexed :=
    hev.grown.indexed.mpr (hg.indexed hd)
  refine ⟨⟨hev, hmade, fun hd => (hmade (hindexed hd)).lt_size, fun hd => ?_⟩, echo_intern hn d st⟩
  have hfree : d ≠ .free := by simp [hd]
  obtain ⟨hp, hform⟩ := hform hfree
  apply Store.solid_of_cell (cell_intern hn (hindexed hfree))
  intro c hm
  rw [← Store.form_mentions, hev.grown.widens.form hp, hform] at hm
  exact ((hc c hm).kept hg hev.grown).solid hd

end Intern

end Primitives

section Builders

variable (hg : d.Good st)

include hg

/-- A node that points to an entry of a table. -/
theorem runs_entry {table : StoreM Nat} {make : Nat → Node} {f : Form}
    (ht : Runs d.Again d.Evolves table st fun id st' =>
      st'.Indexed → st'.Placed (make id) ∧ st'.form (make id) = f)
    (hn : ∀ id kind, make id ≠ .intrinsic kind) (hc : ∀ c ∈ f.mentions, d.Fit st c)
    (hr : d = .typed → st.Regular f) :
    Runs d.Again d.Evolves (table >>= fun id => Store.intern (make id)) st (d.Built f) := by
  apply ht.bind
  intro id st₁ h₁ hid
  apply runs_intern (hn id) (h₁.good hg) hid
  · intro c hm
    exact (hc c hm).later hg h₁
  · intro hd
    have hfree : d ≠ .free := by simp [hd]
    exact (hr hd).grows h₁.grown.grows fun c hm => (hc c hm).valid hfree

theorem runs_mkLiteral (value : Literal) :
    Runs d.Again d.Evolves (Store.mkLiteral value) st (d.Built (.literal value)) :=
  runs_intern (fun _ h => by cases h) hg (fun _ => ⟨trivial, rfl⟩) (fun _ h => by cases h)
    fun _ => trivial

theorem runs_mkInfer (name : String) :
    Runs d.Again d.Evolves (Store.mkInfer name) st (d.Built (.infer name)) :=
  runs_intern (fun _ h => by cases h) hg (fun _ => ⟨trivial, rfl⟩) (fun _ h => by cases h)
    fun _ => trivial

theorem runs_mkParam (name : String) :
    Runs d.Again d.Evolves (Store.mkParam name) st (d.Built (.param name)) :=
  runs_intern (fun _ h => by cases h) hg (fun _ => ⟨trivial, rfl⟩) (fun _ h => by cases h)
    fun _ => trivial

theorem runs_mkArray {element : TypeId} (h : d.Fit st element) :
    Runs d.Again d.Evolves (Store.mkArray element) st (d.Built (.array element)) := by
  refine runs_intern (fun _ h => by cases h) hg (fun _ => ⟨trivial, rfl⟩) (fun c hc => ?_)
    fun _ => trivial
  exact List.mem_singleton.mp hc ▸ h

theorem runs_mkTuple {slots : List Slot} (h : ∀ c ∈ slots.map Slot.type, d.Fit st c) :
    Runs d.Again d.Evolves (Store.mkTuple slots) st (d.Built (.tuple slots)) := by
  apply runs_entry (f := .tuple slots) hg _ (fun _ _ h => by cases h) h fun _ => trivial
  apply (runs_internSlots slots).mono
  intro id st' _ hid hi
  simp [Store.Placed, Store.form, Store.slots, hid hi]

theorem runs_mkObject {shape : Shape} (h : ∀ c ∈ shape.types, d.Fit st c)
    (hd : d = .typed → shape.Distinct) :
    Runs d.Again d.Evolves (Store.mkObject shape) st (d.Built (.object shape)) := by
  apply runs_entry (f := .object shape) hg _ (fun _ _ h => by cases h) h hd
  apply (runs_internShape hd).mono
  intro id st' _ hid hi
  simp [Store.Placed, Store.form, Store.shape, hid hi]

theorem runs_mkFunction {signature : Signature}
    (h : ∀ c ∈ (Form.function signature).mentions, d.Fit st c) :
    Runs d.Again d.Evolves (Store.mkFunction signature) st (d.Built (.function signature)) := by
  apply runs_entry hg _ (fun _ _ h => by cases h) h fun _ => trivial
  apply (runs_internSignature signature).mono
  intro id st' _ hid hi
  simp [Store.Placed, Store.form, Store.signature, hid hi]

theorem runs_mkConstructor {params : List Slot} {result : TypeId}
    (h : ∀ c ∈ (Form.constructor { params, result }).mentions, d.Fit st c) :
    Runs d.Again d.Evolves (Store.mkConstructor params result) st
      (d.Built (.constructor { params, result })) := by
  apply runs_entry hg _ (fun _ _ h => by cases h) h fun _ => rfl
  apply (runs_internSignature { params, result }).mono
  intro id st' _ hid hi
  simp [Store.Placed, Store.form, Store.signature, hid hi]

theorem runs_mkWrapper {kind : Wrapper} {args : List TypeId} (h : ∀ c ∈ args, d.Fit st c)
    (hd : d = .typed → kind.Takes args.length) :
    Runs d.Again d.Evolves (Store.mkWrapper kind args) st (d.Built (.wrapper kind args)) := by
  apply runs_entry (f := .wrapper kind args) hg _ (fun _ _ h => by cases h) h hd
  apply (runs_internList args).mono
  intro id st' _ hid hi
  simp [Store.Placed, Store.form, Store.list, hid hi]

/-- An action that answers with an old type or with a new one made of a list of members. -/
theorem runs_planned {act : StoreM TypeId} {plan : Store → TypeId ⊕ List TypeId}
    {make : ListId → Node} {g : List TypeId → Form} (hrun : ∀ st, act.run st = match plan st with
      | .inl t => (t, st)
      | .inr ms => (Store.internList ms >>= fun id => Store.intern (make id)).run st)
    (hmake : ∀ (st : Store) id ms, st.lists.get? id = some ms →
      st.Placed (make id) ∧ st.form (make id) = g ms)
    (hn : ∀ id kind, make id ≠ .intrinsic kind)
    (hmentions : ∀ ms, (g ms).mentions = ms)
    (hsame : ∀ st', d.Again st st' → plan st' = plan st)
    (hold : ∀ t, plan st = .inl t → d.Fit st t)
    (hnew : ∀ ms, plan st = .inr ms → ∀ m ∈ ms, d.Fit st m)
    (hregular : d = .typed → ∀ ms, plan st = .inr ms → st.Regular (g ms)) :
    Runs d.Again d.Evolves act st fun t st' => d.Fit st' t := by
  have hgo : Runs d.Again d.Evolves (match plan st with
      | .inl t => pure t
      | .inr ms => Store.internList ms >>= fun id => Store.intern (make id)) st
      fun t st' => d.Fit st' t := by
    cases hp : plan st with
    | inl t => exact Runs.pure (hold t hp)
    | inr ms =>
      have hbuilt : Runs d.Again d.Evolves
          (Store.internList ms >>= fun id => Store.intern (make id)) st (d.Built (g ms)) := by
        apply runs_entry hg _ hn
        · rw [hmentions]
          exact hnew ms hp
        · exact fun hd => hregular hd ms hp
        · apply (runs_internList ms).mono
          intro id st' _ hid hi
          exact hmake st' id ms (hid hi)
      exact hbuilt.mono fun _ _ _ h => h.fit
  have hact (st' : Store) (he : plan st' = plan st) : Action.run act st' =
      Action.run (match plan st with
        | .inl t => pure t
        | .inr ms =>
          Store.internList ms >>= fun id => Store.intern (make id) : StoreM TypeId) st' := by
    have h := hrun st'
    rw [he] at h
    cases hp : plan st with
    | inl t =>
      rw [hp] at h
      exact h
    | inr ms =>
      rw [hp] at h
      exact h
  have hfirst := hact st rfl
  refine ⟨?_, fun st' hw => ?_⟩
  · unfold Leads
    rw [hfirst]
    exact hgo.leads
  · rw [hfirst] at hw ⊢
    have hlater : d.Again st st' := Foregoing.before hgo.leads.1 hw
    show Action.run act st' = _
    rw [hact st' (hsame st' hlater)]
    exact hgo.echo st' hw

variable {types : List TypeId} (ht : ∀ t ∈ types, d.Fit st t)

include ht

/-- The union of types that may be used may be used, and is found again. -/
theorem runs_mkUnion :
    Runs d.Again d.Evolves (Store.mkUnion types) st fun t st' => d.Fit st' t := by
  have hflat {m : TypeId} (hm : m ∈ st.flat types) : d.Fit st m := by
    obtain ⟨t, hmem, hm⟩ := (st.mem_flat types).mp hm
    exact (ht t hmem).mem_unionMembers hg hm
  apply runs_planned hg (fun st => Store.run_mkUnion st types) (g := .union)
  · intro st id ms hid
    simp [Store.Placed, Store.form, Store.list, hid]
  · exact fun _ _ h => by cases h
  · exact fun _ => rfl
  · intro st' hw
    exact Store.unionPlan_steady fun t hm => (ht t hm).steady hg hw
  · intro t hp
    rcases Store.unionPlan_old hp with hi | hm
    · exact hg.intrinsic hi
    · exact hflat (st.mem_kept_flat types hm)
  · intro ms hp m hm
    obtain ⟨rfl, _⟩ := Store.unionPlan_inr hp
    exact hflat (st.mem_kept_flat types hm)
  · intro hd ms hp
    obtain ⟨rfl, _⟩ := Store.unionPlan_inr hp
    exact Store.regular_kept (hg.tidy hd) hp

theorem runs_mkIntersection :
    Runs d.Again d.Evolves (Store.mkIntersection types) st fun t st' => d.Fit st' t := by
  have hcrossed {m : TypeId} (hm : m ∈ st.crossed types) : d.Fit st m := by
    have hm := (Store.mem_crossed hm).1
    rw [mem_ascending, List.mem_flatMap] at hm
    obtain ⟨t, hmem, hm⟩ := hm
    exact (ht t hmem).mem_intersectionMembers hg hm
  apply runs_planned hg (fun st => Store.run_mkIntersection st types) (g := .intersection)
  · intro st id ms hid
    simp [Store.Placed, Store.form, Store.list, hid]
  · exact fun _ _ h => by cases h
  · exact fun _ => rfl
  · intro st' hw
    exact Store.intersectionPlan_steady fun t hm => (ht t hm).steady hg hw
  · intro t hp
    rcases Store.intersectionPlan_inl hp with hi | hm
    · exact hg.intrinsic hi
    · exact hcrossed hm
  · intro ms hp m hm
    obtain ⟨_, _, rfl, _⟩ := Store.intersectionPlan_inr hp
    exact hcrossed hm
  · intro hd ms hp
    exact Store.regular_crossed (hg.tidy hd) hp

omit ht in
/-- Every form is put together out of types that may be used. -/
theorem runs_build {f : Form} (hc : ∀ c ∈ f.mentions, d.Fit st c)
    (ha : d = .typed → f.Admissible) :
    Runs d.Again d.Evolves f.build st fun t st' => d.Fit st' t := by
  have made {act : StoreM TypeId} {f : Form} (h : Runs d.Again d.Evolves act st (d.Built f)) :
      Runs d.Again d.Evolves act st fun t st' => d.Fit st' t :=
    h.mono fun _ _ _ hb => hb.fit
  cases f with
  | intrinsic kind => exact Runs.pure (hg.intrinsic (TypeId.isIntrinsic_iff.mpr ⟨kind, rfl⟩))
  | literal value => exact made (runs_mkLiteral hg value)
  | infer name => exact made (runs_mkInfer hg name)
  | param name => exact made (runs_mkParam hg name)
  | union members => exact runs_mkUnion hg hc
  | intersection members => exact runs_mkIntersection hg hc
  | object shape => exact made (runs_mkObject hg hc ha)
  | array element => exact made (runs_mkArray hg (hc element (by simp [Form.mentions])))
  | tuple slots => exact made (runs_mkTuple hg hc)
  | function signature => exact made (runs_mkFunction hg hc)
  | constructor signature =>
    exact made (runs_mkConstructor hg fun c h => hc c (Form.mem_constructor h))
  | wrapper kind args => exact made (runs_mkWrapper hg hc ha)

end Builders

/-- The parts of the conditionals of a store may be used, unless placeholders are out of bounds. -/
theorem parts_conditional (hd : d ≠ .solid) (hg : d.Good st) (id : ConditionalId) :
    d.Fit st (st.conditional id).pattern ∧ d.Fit st (st.conditional id).yes ∧
      d.Fit st (st.conditional id).no := by
  have hfit {t : TypeId} (h : d ≠ .free → t < st.size) : d.Fit st t := ⟨h, fun hs => absurd hs hd⟩
  unfold Store.conditional
  cases hc : st.conditionals.get? id with
  | none => exact ⟨hg.intrinsic rfl, hg.intrinsic rfl, hg.intrinsic rfl⟩
  | some c =>
    have hmem : c ∈ st.conditionals.items := List.mem_of_getElem? hc
    exact ⟨hfit fun hf => ((hg.anchored hf).conditional hmem).1,
      hfit fun hf => ((hg.anchored hf).conditional hmem).2.1,
      hfit fun hf => ((hg.anchored hf).conditional hmem).2.2⟩

def rules (d : Discipline) : WalkRules where
  Good := d.Good
  Fit := d.Fit
  Evolves := d.Evolves
  Again := d.Again
  Strict := d = .typed
  evolution := inferInstance
  grown h := h.grown
  good h := h.good
  later hg h ht := ht.later hg h
  child hg ht hc := ht.child hg hc
  intrinsic := Good.intrinsic
  before h hw := Foregoing.before (F := d.Evolves) h hw
  wider h := h.widens.size
  founded hg h := (hg.anchored h.held).founded
  steady hg ht h := ht.steady hg h
  indexed hd hg := hg.indexed (by simp [hd])
  tidy hd hg := hg.tidy hd
  valid hd ht := ht.valid (by simp [hd])
  build hg hc ha := runs_build hg hc ha
  Open := d ≠ .solid
  Firm := d.Firm
  firm h := h.again
  ahead h hw := Foregoing.before (F := d.Evolves) h hw
  closed h hd := hd h.1
  opens ht hr hd := by
    rw [(ht.solid hd).isReserved] at hr
    cases hr
  unreserved hg ht h := ((ht.solid h.1).widens (hg.anchored h.again.held) h.2).isReserved
  reserve {st} hd _ := (leads_reserve d st).mono fun _ _ _ h =>
    ⟨fun _ => (List.getElem?_eq_some_iff.mp h.2).1, fun hs => absurd hs hd⟩
  fill h hg ht hc hk := h.copied hg ht hc hk
  filled hd ht := ht.filled hd
  part id hd hg := parts_conditional hd hg id

end Discipline

namespace Form

/-- Whatever the types are, the store is extended by primitive actions. -/
theorem evolves_build (f : Form) (st : Store) : Discipline.Evolves .free st (f.build.run st).2 :=
  (Discipline.runs_build (Discipline.good_free st) (fun c _ => Discipline.fit_free st c)
    fun h => by cases h).leads.1

/-- What is built has the form that it was given. -/
theorem made_build {f : Form} (hf : f.isExact = true) {st : Store} (hi : st.Indexed) :
    Made f (f.build.run st).1 (f.build.run st).2 := by
  have hi' : (f.build.run st).2.Indexed := (f.evolves_build st).grown.indexed.mpr hi
  have hg := Discipline.good_free st
  have fit (c : TypeId) : Discipline.Fit .free st c := Discipline.fit_free st c
  cases f with
  | intrinsic kind => cases hf
  | union members => cases hf
  | intersection members => cases hf
  | literal value => exact (Discipline.runs_mkLiteral hg value).leads.2.made hi'
  | infer name => exact (Discipline.runs_mkInfer hg name).leads.2.made hi'
  | param name => exact (Discipline.runs_mkParam hg name).leads.2.made hi'
  | object shape =>
    exact (Discipline.runs_mkObject hg (fun c _ => fit c) fun h => by cases h).leads.2.made hi'
  | array element => exact (Discipline.runs_mkArray hg (fit element)).leads.2.made hi'
  | tuple slots => exact (Discipline.runs_mkTuple hg fun c _ => fit c).leads.2.made hi'
  | function signature => exact (Discipline.runs_mkFunction hg fun c _ => fit c).leads.2.made hi'
  | constructor signature =>
    obtain ⟨receiver, params, result⟩ := signature
    obtain rfl : receiver = none := Option.isNone_iff_eq_none.mp hf
    exact (Discipline.runs_mkConstructor hg fun c _ => fit c).leads.2.made hi'
  | wrapper kind args =>
    exact (Discipline.runs_mkWrapper hg (fun c _ => fit c) fun h => by cases h).leads.2.made hi'

end Form

end TypeCalculus
