import TypeCalculus.Proofs.Growth

namespace TypeCalculus.Evaluator

open Store (Kind Later Made)

def isMapped (st : Store) (t : TypeId) : Bool := (st.form? t).any Form.isContainer

section Solves

variable (mapping : Mapping) (st st' : Store) (I : TypeId → TypeId → Prop)

def Image (x y : TypeId) : Prop := if isMapped st x = true then I x y else y = x

def ValueImage (v w : TypeId) : Prop :=
  ∃ images, List.Forall₂ (Image st I) (st.unionMembers v) images ∧
    (Store.mkUnion images).run st' = (w, st')

/-- The equation that the answer `a` at `n` solves, `I` giving the answers at other types. The types
to be mapped are read in `st`, their answers in `st'`. -/
inductive Solves (n a : TypeId) : Prop
  | object {x y : Shape} (hn : st.form? n = some (.object x)) (ha : st'.form? a = some (.object y))
    (hf : List.Forall₂ (FieldMapped mapping (ValueImage st st' I)) x.fields y.fields)
    (hi : IndexMapped mapping (ValueImage st st' I) x.index y.index) : Solves n a
  | array {x y : TypeId} (hn : st.form? n = some (.array x)) (ha : st'.form? a = some (.array y))
    (h : ValueImage st st' I x y) : Solves n a
  | tuple {xs ys : List Slot} (hn : st.form? n = some (.tuple xs))
    (ha : st'.form? a = some (.tuple ys))
    (h : List.Forall₂ (SlotMapped mapping (ValueImage st st' I)) xs ys) : Solves n a
  | other (hn : isMapped st n = false) (ha : a = .never) : Solves n a

end Solves

section Stability

variable {mapping : Mapping} {st : Store}

theorem IndexMapped.mono {R R' : TypeId → TypeId → Prop} {x y : Option IndexSignature}
    (h : IndexMapped mapping R x y) (hR : ∀ i ∈ x, ∀ w, R i.type w → R' i.type w) :
    IndexMapped mapping R' x y := by
  cases x <;> cases y
  · exact h
  · exact h.elim
  · exact h
  · exact ⟨h.1, hR _ rfl _ h.2.1, h.2.2⟩

theorem Image.of_mapped {I : TypeId → TypeId → Prop} {x y : TypeId} (hm : isMapped st x = true)
    (h : I x y) : Image st I x y := by
  rw [Image, if_pos hm]
  exact h

theorem Image.of_unmapped {I : TypeId → TypeId → Prop} {x : TypeId} (hm : ¬isMapped st x = true) :
    Image st I x x := by
  rw [Image, if_neg hm]

theorem Image.mono {I I' : TypeId → TypeId → Prop} {x y : TypeId} (h : Image st I x y)
    (hI : I x y → I' x y) : Image st I' x y := by
  unfold Image at h ⊢
  split
  · rename_i hm
    rw [if_pos hm] at h
    exact hI h
  · rename_i hm
    rwa [if_neg hm] at h

theorem filter_keys_all {m : Mapping} (hk : m.keys = .all) (fields : List Field) :
    fields.filter (m.keys.accepts ·.name) = fields :=
  List.filter_eq_self.mpr fun _ _ => by rw [hk]; rfl

/-- What was put together under all keys solves the equation. -/
theorem Mapped.solves {st' : Store} {I : TypeId → TypeId → Prop} (hk : mapping.keys = .all)
    {f g : Form} (h : Mapped mapping (ValueImage st st' I) f g) {n a : TypeId}
    (hn : st.form? n = some f) (ha : st'.form? a = some g) : Solves mapping st st' I n a := by
  cases h with
  | object hf hi =>
    rw [filter_keys_all hk] at hf
    exact .object hn ha hf hi
  | array _ h => exact .array hn ha h
  | tuple _ h => exact .tuple hn ha h

/-- A mapping of all keys leaves no container out. -/
theorem Unmapped.isMapped (hk : mapping.keys = .all) {n : TypeId}
    (h : Unmapped mapping (st.form? n)) : Evaluator.isMapped st n = false := by
  unfold Evaluator.isMapped
  cases hf : st.form? n with
  | none => rfl
  | some f =>
    cases hc : f.isContainer with
    | false => simp [hc]
    | true => exact absurd hk (h f hf hc).1

section Growing

variable {st₀ st st' : Store} (hw₀ : st₀.WellFormed) (hw : st.WellFormed) (hg : st.Grows st')
variable (h₀ : st₀.size ≤ st.size) {I I' : TypeId → TypeId → Prop}
variable (hI : ∀ x y, I x y → y < st.size ∧ I' x y)

include hw₀ hw hg h₀ hI

/-- The images of a value stay what they are while the store grows. -/
theorem ValueImage.grows {v w : TypeId} (hv : v < st₀.size) (h : ValueImage st₀ st I v w) :
    ValueImage st₀ st' I' v w := by
  obtain ⟨images, himages, hrun⟩ := h
  have hvalid : ∀ y ∈ images, y < st.size := by
    intro y hy
    obtain ⟨x, hx, hxy⟩ := mem_right_of_forall₂ himages hy
    unfold Image at hxy
    split at hxy
    · exact (hI _ _ hxy).1
    · exact hxy ▸ Nat.lt_of_lt_of_le (hw₀.lt_size_of_unionMembers hv hx) h₀
  have hagain := Store.repeats_mkUnion hw hvalid st'
  rw [hrun] at hagain
  exact ⟨images, himages.imp fun x y hxy => hxy.mono fun h => (hI x y h).2, hagain hg⟩

theorem Solves.grows {n a : TypeId} (h : Solves mapping st₀ st I n a) :
    Solves mapping st₀ st' I' n a := by
  have hvalue {f : Form} (hn : st₀.form? n = some f) {v w : TypeId} (hv : v ∈ f.mentions)
      (h : ValueImage st₀ st I v w) : ValueImage st₀ st' I' v w :=
    h.grows hw₀ hw hg h₀ hI ((hw₀.sound n).inside (Store.mentions_of_form hn ▸ hv))
  cases h with
  | @object x y hn ha hf hi =>
    refine .object hn (hw.form_grows hg ha) ?_ ?_
    · have hmem : ∀ field ∈ x.fields, field.type ∈ (Form.object x).mentions := fun field hm =>
        List.mem_append_left _ (List.mem_map_of_mem hm)
      exact ((List.forall₂_and_left _ _).mpr ⟨hmem, hf⟩).imp fun _ _ h =>
        ⟨hvalue hn h.1 h.2.1, h.2.2⟩
    · exact hi.mono fun i hm _ => hvalue hn (List.mem_append_right _
        (List.mem_map_of_mem (Option.mem_toList.mpr hm)))
  | array hn ha h =>
    exact .array hn (hw.form_grows hg ha) (hvalue hn (List.mem_singleton.mpr rfl) h)
  | @tuple xs ys hn ha h =>
    have hmem : ∀ slot ∈ xs, slot.type ∈ (Form.tuple xs).mentions := fun slot hm =>
      List.mem_map_of_mem hm
    exact .tuple hn (hw.form_grows hg ha)
      (((List.forall₂_and_left _ _).mpr ⟨hmem, h⟩).imp fun _ _ h => ⟨hvalue hn h.1 h.2.1, h.2.2⟩)
  | other hn ha => exact .other hn ha

end Growing

end Stability

namespace Deep

section Invariant

variable (id : MappingId) (mapping : Mapping) (st₀ : Store)

/-- The evaluator has handed out `a` as the answer at `n`, or would. -/
structure Shows (s : State) (n a : TypeId) : Prop where
  lt_size : a < s.2.size
  single (ms : List TypeId) : s.2.form? a ≠ some (.union ms)
  memo : s.1.memo.get? ⟨.mapping id, n⟩ = some (.done a) ∨
    s.1.memo.get? ⟨.mapping id, n⟩ = some (.running (some a) true)

structure Good (s : State) : Prop where
  key {task : Task} {progress : Progress} : s.1.memo.get? task = some progress →
    task.operator = .mapping id ∧ task.subject < st₀.size
  solved {n a : TypeId} : s.1.memo.get? ⟨.mapping id, n⟩ = some (.done a) →
    Solves mapping st₀ s.2 (Shows id s) n a
  running {task : Task} {q : Option TypeId} {r : Bool} :
    s.1.memo.get? task = some (.running q r) → task ∈ s.1.guard.visiting ∧
      ∃ p, q = some p ∧ s.2.cells[p]? = some (.reserved none)
  apart {task task' : Task} {p : TypeId} {r r' : Bool} :
    s.1.memo.get? task = some (.running (some p) r) →
    s.1.memo.get? task' = some (.running (some p) r') → task = task'
  visited {task : Task} : task ∈ s.1.guard.visiting → s.1.memo.get? task ≠ none

structure Held (s : State) : Prop where
  valid : Evaluator.Held Valid s
  grown : st₀.Extends s.2
  balanced : s.1.guard.depth = s.1.guard.visiting.length
  good : s.1.guard.overrun = true ∨ Good id mapping st₀ s

structure Walk (s s' : State) : Prop where
  keeps : Keeps Valid s s'
  guard : s.1.guard.Kept s'.1.guard
  shows {n a : TypeId} : s.2.WellFormed → Shows id s n a → Shows id s' n a
  held : Held id mapping st₀ s → Held id mapping st₀ s'

instance : Evolution (Walk id mapping st₀) where
  refl _ := ⟨Evolution.refl _, .refl _, fun _ h => h, fun h => h⟩
  trans h h' := ⟨Evolution.trans h.keeps h'.keeps, h.guard.trans h'.guard,
    fun hw hs => h'.shows (h.keeps.later.sound hw) (h.shows hw hs), fun hs => h'.held (h.held hs)⟩

def Answers (s : State) (n a : TypeId) : Prop :=
  a < s.2.size ∧ (s.1.guard.overrun = true ∨ Shows id s n a)

def Writes (s s' : State) (n : TypeId) (x : Progress) : Prop :=
  ∀ task, s'.1.memo.get? task = if task = ⟨.mapping id, n⟩ then some x else s.1.memo.get? task

structure Values (v w : TypeId) (s : State) : Prop where
  source : v < st₀.size
  grown : st₀.Extends s.2
  sound : s.2.WellFormed
  lt_size : w < s.2.size
  image : s.1.guard.overrun = true ∨ ValueImage st₀ s.2 (Shows id s) v w

end Invariant

section Steps

variable {id : MappingId} {mapping : Mapping} {st₀ : Store} (hw₀ : st₀.WellFormed) {s : State}

theorem Shows.grows {s' : State} (hw : s.2.WellFormed) (hg : s.2.Grows s'.2) {n a : TypeId}
    (h : Shows id s n a)
    (hm : s.1.memo.get? ⟨.mapping id, n⟩ = some (.done a) ∨
        s.1.memo.get? ⟨.mapping id, n⟩ = some (.running (some a) true) →
      s'.1.memo.get? ⟨.mapping id, n⟩ = some (.done a) ∨
        s'.1.memo.get? ⟨.mapping id, n⟩ = some (.running (some a) true)) : Shows id s' n a :=
  ⟨Nat.lt_of_lt_of_le h.lt_size hg.size, hw.single_grows hg h.lt_size h.single, hm h.memo⟩

/-- The evaluator knows its answers for types that are no unions. -/
theorem Good.shows (hw : s.2.WellFormed) (hg : Good id mapping st₀ s) {n a : TypeId}
    (h : s.1.memo.get? ⟨.mapping id, n⟩ = some (.done a)) : Shows id s n a := by
  have hcontainer {g : Form} (ha : s.2.form? a = some g) (hk : g.isContainer = true) :
      Shows id s n a := by
    refine ⟨Store.lt_size_of_form ha, fun ms hf => ?_, .inl h⟩
    cases ha.symm.trans hf
    cases hk
  cases hg.solved h with
  | object _ ha _ _ => exact hcontainer ha rfl
  | array _ ha _ => exact hcontainer ha rfl
  | tuple _ ha _ => exact hcontainer ha rfl
  | other _ ha =>
    have hf : s.2.form? a = some (.intrinsic .never) := ha ▸ hw.founded.form .never
    refine ⟨Store.lt_size_of_form hf, fun ms hms => ?_, .inl h⟩
    cases hf.symm.trans hms

include hw₀

theorem Good.solvedLater (hg : Good id mapping st₀ s) (hw : s.2.WellFormed)
    (hgrown : st₀.Extends s.2) (s' : State) (hgrows : s.2.Grows s'.2)
    (hshows : ∀ n a, Shows id s n a → Shows id s' n a) {n a : TypeId}
    (h : s.1.memo.get? ⟨.mapping id, n⟩ = some (.done a)) :
    Solves mapping st₀ s'.2 (Shows id s') n a :=
  (hg.solved h).grows hw₀ hw hgrows hgrown.size fun x y hxy => ⟨hxy.lt_size, hshows x y hxy⟩

/-- Writing down one entry. It is an answer that solves its equation, or the placeholder of a task
under way that no other task has; and the other tasks go on with theirs. -/
theorem Good.written (hg : Good id mapping st₀ s) (hw : s.2.WellFormed) (hgrown : st₀.Extends s.2)
    {s' : State} {n : TypeId} {x : Progress} (hx : Writes id s s' n x) (hn : n < st₀.size)
    (hgrows : s.2.Grows s'.2) (hshows : ∀ u a, Shows id s u a → Shows id s' u a)
    (hdone : ∀ a, x = .done a → Solves mapping st₀ s'.2 (Shows id s') n a)
    (hown : ∀ q r, x = .running q r → ⟨.mapping id, n⟩ ∈ s'.1.guard.visiting ∧ ∃ p, q = some p ∧
      s'.2.cells[p]? = some (.reserved none) ∧
      ∀ task r', s.1.memo.get? task = some (.running (some p) r') → task = ⟨.mapping id, n⟩)
    (hother : ∀ task p r, task ≠ ⟨.mapping id, n⟩ → task ∈ s.1.guard.visiting →
      s.1.memo.get? task = some (.running (some p) r) → s.2.cells[p]? = some (.reserved none) →
      task ∈ s'.1.guard.visiting ∧ s'.2.cells[p]? = some (.reserved none))
    (hvisited : ∀ task ∈ s'.1.guard.visiting, task = ⟨.mapping id, n⟩ ∨ task ∈ s.1.guard.visiting) :
    Good id mapping st₀ s' where
  key {task _} hp := by
    rw [hx] at hp
    split at hp
    · rename_i he
      exact he ▸ ⟨rfl, hn⟩
    · exact hg.key hp
  solved {u a} hp := by
    rw [hx] at hp
    split at hp
    · rename_i he
      obtain rfl : u = n := congrArg Task.subject he
      exact hdone a (Option.some.inj hp)
    · exact hg.solvedLater hw₀ hw hgrown s' hgrows hshows hp
  running {task q r} hp := by
    rw [hx] at hp
    split at hp
    · rename_i he
      obtain ⟨hv, p, hq, hc, _⟩ := hown q r (Option.some.inj hp)
      exact ⟨he ▸ hv, p, hq, hc⟩
    · rename_i hne
      obtain ⟨hv, p, rfl, hc⟩ := hg.running hp
      obtain ⟨hv', hc'⟩ := hother task p r hne hv hp hc
      exact ⟨hv', p, rfl, hc'⟩
  apart {task task' p r r'} hp hp' := by
    have hfree {r r' : Bool} (h : x = .running (some p) r) {task : Task}
        (ht : s.1.memo.get? task = some (.running (some p) r')) : task = ⟨.mapping id, n⟩ := by
      obtain ⟨_, _, hq, _, hfree⟩ := hown _ _ h
      cases hq
      exact hfree task r' ht
    rw [hx] at hp hp'
    split at hp <;> split at hp'
    · rename_i he he'
      exact he.trans he'.symm
    · rename_i he _
      exact he.trans (hfree (Option.some.inj hp) hp').symm
    · rename_i he'
      exact (hfree (Option.some.inj hp') hp).trans he'.symm
    · exact hg.apart hp hp'
  visited {task} hv := by
    rw [hx]
    split
    · exact Option.some_ne_none _
    · rename_i hne
      exact hg.visited ((hvisited task hv).resolve_left hne)

theorem walk_store {st' : Store} (h : Later s.2 st') : Walk id mapping st₀ s (s.1, st') where
  keeps := Keeps.store kind_Valid h
  guard := .refl _
  shows hw hs := hs.grows hw h.grown.grows fun hm => hm
  held hs :=
    { valid := (Keeps.store kind_Valid h).held hs.valid
      grown := hs.grown.trans h.grown
      balanced := hs.balanced
      good := hs.good.imp_right fun hg =>
        { hg with
          solved := fun hm => hg.solvedLater hw₀ hs.valid.sound hs.grown (s.1, st') h.grown.grows
            (fun _ _ hs' => hs'.grows hs.valid.sound h.grown.grows fun hm => hm) hm
          running := fun hm => by
            obtain ⟨hv, p, hq, hc⟩ := hg.running hm
            refine ⟨hv, p, hq, ?_⟩
            exact (h.grown.cell (List.getElem?_eq_some_iff.mp hc).1).trans hc } }

theorem held_guard (hs : Held id mapping st₀ s) {g : Guard Task} (hk : s.1.guard.Kept g)
    (o : Prop) :
    Held id mapping st₀ ({ s.1 with guard := g, observed := o }, s.2) where
  valid := { hs.valid with }
  grown := hs.grown
  balanced := by
    show g.depth = g.visiting.length
    rw [hk.depth, hk.visiting]
    exact hs.balanced
  good := by
    refine hs.good.imp hk.overrun fun hg => ?_
    refine { hg with solved := fun hm => ?_, running := fun hm => ?_, visited := fun hv => ?_ }
    · exact hg.solvedLater hw₀ hs.valid.sound hs.grown ({ s.1 with guard := g, observed := o }, s.2)
        (Store.Extends.refl _).grows (fun _ _ h => { h with }) hm
    · obtain ⟨hv, h⟩ := hg.running hm
      exact ⟨hk.visiting ▸ hv, h⟩
    · exact hg.visited (hk.visiting ▸ hv)

theorem walk_guard {g : Guard Task} (hk : s.1.guard.Kept g) (o : Prop) :
    Walk id mapping st₀ s ({ s.1 with guard := g, observed := o }, s.2) where
  keeps := ⟨Evolution.refl _, fun hr => ⟨_, hr⟩, fun hs => { hs with }⟩
  guard := hk
  shows _ h := { h with }
  held hs := held_guard hw₀ hs hk o

theorem stable_values (v w : TypeId) :
    Stable (Walk id mapping st₀) (Values id st₀ v w) := by
  intro s s' h hv
  refine ⟨hv.source, hv.grown.trans h.keeps.later.grown, h.keeps.later.sound hv.sound,
    Nat.lt_of_lt_of_le hv.lt_size h.keeps.later.grown.size, ?_⟩
  refine hv.image.imp h.guard.overrun fun himage => ?_
  exact himage.grows hw₀ hv.sound h.keeps.later.grown.grows hv.grown.size
    (fun x y hxy => ⟨hxy.lt_size, h.shows hv.sound hxy⟩) hv.source

end Steps

section Values

variable {id : MappingId} {mapping : Mapping} {st₀ : Store} (hw₀ : st₀.WellFormed) {s : State}
variable {member : TypeId → EvalM TypeId}

section Joining

variable {v : TypeId} (hs : Held id mapping st₀ s) (hlt : v < st₀.size)
variable (J : State → TypeId → TypeId → Prop)

def Found (x y : TypeId) (s : State) : Prop :=
  y < s.2.size ∧ (s.1.guard.overrun = true ∨ (∀ ms, s.2.form? y ≠ some (.union ms)) ∧ J s x y)

include hw₀ hs hlt

/-- Distributing over a type joins the images of its members. -/
theorem leads_distribute {f : TypeId → EvalM TypeId}
    (hJ : ∀ s s' x y, Walk id mapping st₀ s s' → s.2.WellFormed → J s x y → J s' x y)
    (hf : ∀ x ∈ st₀.unionMembers v, ∀ s', Walk id mapping st₀ s s' →
      Leads (Walk id mapping st₀) (f x) s' (Found J x)) :
    Leads (Walk id mapping st₀) (Store.distribute v f) s fun w s' => w < s'.2.size ∧
      (s'.1.guard.overrun = true ∨ ∃ images, List.Forall₂ (J s') (st₀.unionMembers v) images ∧
        (Store.mkUnion images).run s'.2 = (w, s'.2)) := by
  have hmembers : s.2.unionMembers v = st₀.unionMembers v :=
    hw₀.unionMembers_grows hs.grown.grows hlt
  refine Store.leads_distribute Prod.snd (A := Found J) rfl (fun x y s₁ s₂ h₁ h₂ h => ?_)
    (fun x hx => hf x (hmembers ▸ hx)) (fun hnone => ?_) (fun x y s₁ h₁ hone hy => ?_)
    (fun ys s₁ h₁ _ hys => ?_)
  · have hw₁ := (h₁.held hs).valid.sound
    have hext := h₂.keeps.later.grown
    refine ⟨Nat.lt_of_lt_of_le h.1 hext.size, h.2.imp h₂.guard.overrun fun hy => ?_⟩
    exact ⟨hw₁.single_grows hext.grows h.1 hy.1, hJ s₁ s₂ x y h₂ hw₁ hy.2⟩
  · rw [hmembers] at hnone
    refine ⟨Store.never_lt_size hs.valid.sound, .inr ⟨[], ?_, rfl⟩⟩
    rw [hnone]
    exact .nil
  · rw [hmembers] at hone
    refine ⟨hy.1, hy.2.imp_right fun h => ⟨[y], ?_, ?_⟩⟩
    · rw [hone]
      exact .cons h.2 .nil
    · exact Store.mkUnion_singleton (h₁.held hs).valid.sound.founded h.1
  · rw [hmembers] at hys
    have hw₁ := (h₁.held hs).valid.sound
    have hvalid : ∀ y ∈ ys, y < s₁.2.size := fun y hy => by
      obtain ⟨_, _, h⟩ := mem_right_of_forall₂ hys hy
      exact h.1
    have hmake := Store.kind_valid.leads_mkUnion hw₁ hvalid
    have hstep : Walk id mapping st₀ s₁ (s₁.1, (Action.run (Store.mkUnion ys) s₁.2).2) :=
      walk_store hw₀ hmake.1
    refine leads_lift hstep ⟨hmake.2, ?_⟩
    by_cases ho : s₁.1.guard.overrun = true
    · exact .inl ho
    · refine .inr ⟨ys, hys.imp fun x y h => hJ s₁ _ x y hstep hw₁ (h.2.resolve_left ho).2, ?_⟩
      exact Store.repeats_mkUnion hw₁ hvalid _ (Store.Extends.refl _).grows

end Joining

abbrev Imaged (id : MappingId) (st₀ : Store) : TypeId → TypeId → State → Prop :=
  Found fun s => Image st₀ (Shows id s)

variable (hmember : ∀ s' c, s.1.guard.Kept s'.1.guard → Held id mapping st₀ s' → c < st₀.size →
  Leads (Walk id mapping st₀) (member c) s' fun a s'' => Answers id s'' c a)

include hw₀ hmember

/-- Inside a value a container is answered by the level below, and anything else stays as it is. -/
theorem leads_mapInner {s' : State} (hk : s.1.guard.Kept s'.1.guard)
    (hs : Held id mapping st₀ s') {x : TypeId} (hx : x < st₀.size)
    (hsingle : ∀ ms, st₀.form? x ≠ some (.union ms)) :
    Leads (Walk id mapping st₀) (mapInner member x) s' (Imaged id st₀ x) := by
  have hform := hw₀.form_extends hs.grown hx
  have hmapped : isMapped st₀ x = (s'.2.lookup x).any Node.isContainer := by
    unfold isMapped
    rw [← hform, Store.form?, Option.any_map]
    exact congrArg (fun f => (s'.2.lookup x).any f) (funext fun node => s'.2.form_isContainer node)
  rw [mapInner_eq]
  refine leads_getStore ?_
  split
  · rename_i hc
    refine (hmember s' x hk hs hx).mono fun y s'' _ hy => ⟨hy.1, hy.2.imp_right fun hshows => ?_⟩
    exact ⟨hshows.single, .of_mapped (hmapped.trans hc) hshows⟩
  · rename_i hc
    exact Leads.pure ⟨Nat.lt_of_lt_of_le hx hs.grown.size,
      .inr ⟨hform.symm ▸ hsingle, .of_unmapped (hmapped ▸ hc)⟩⟩

/-- The image of a value is the union of the images of its members. -/
theorem leads_mapValue (hv : mapping.value = .deep) {s' : State} (hk : s.1.guard.Kept s'.1.guard)
    (hs : Held id mapping st₀ s') {v : TypeId} (hlt : v < st₀.size) :
    Leads (Walk id mapping st₀) (mapValue mapping member v) s' (Values id st₀ v) := by
  unfold mapValue
  rw [hv]
  refine (leads_distribute hw₀ hs hlt (fun s => Image st₀ (Shows id s))
    (fun _ _ x y h hw hxy => hxy.mono (h.shows hw)) fun x hx s₁ h₁ => ?_).mono fun w s₁ h₁ h => ?_
  · exact leads_mapInner hw₀ hmember (hk.trans h₁.guard) (h₁.held hs)
      (hw₀.lt_size_of_unionMembers hlt hx) (hw₀.mem_unionMembers hx).2
  · have hs₁ := h₁.held hs
    exact ⟨hlt, hs₁.grown, hs₁.valid.sound, h.1, h.2⟩

end Values

section Open

variable {id : MappingId} {mapping : Mapping} {st₀ : Store} (hw₀ : st₀.WellFormed) {s : State}

def opened (id : MappingId) (s : State) (g : Guard Task) (n : TypeId) : State :=
  let task : Task := ⟨.mapping id, n⟩
  ({ s.1 with
    guard := g
    memo := (s.1.memo.insert task (.running none false)).insert task
      (.running (some s.2.size) false) }, (Store.reserve.run s.2).2)

theorem writes_opened (g : Guard Task) (n : TypeId) :
    Writes id s (opened id s g n) n (.running (some s.2.size) false) := by
  intro task
  simp only [opened, Dict.get?_insert]
  split <;> rfl

variable {g : Guard Task} {n : TypeId} (hm : s.1.memo.get? ⟨.mapping id, n⟩ = none)
variable (hs : Held id mapping st₀ s)

omit hs in
theorem later_opened (hw : s.2.WellFormed) : Later s.2 (opened id s g n).2 :=
  (Store.leads_reserve hw).1

omit hs in
theorem cell_opened (hw : s.2.WellFormed) :
    (opened id s g n).2.cells[s.2.size]? = some (.reserved none) :=
  (Store.leads_reserve hw).2.2

include hm

omit hs in
theorem Shows.opened (hw : s.2.WellFormed) {x y : TypeId} (h : Shows id s x y) :
    Shows id (Deep.opened id s g n) x y := by
  refine h.grows hw (later_opened hw).grown.grows fun hmemo => ?_
  have hne : x ≠ n := by
    rintro rfl
    simp [hm] at hmemo
  have hne : (⟨.mapping id, x⟩ : Task) ≠ ⟨.mapping id, n⟩ := by simpa using hne
  rw [writes_opened g n, if_neg hne]
  exact hmemo

include hw₀ hs

/-- While the values of a type are mapped, an empty placeholder stands for its answer. -/
theorem held_opened (hi : Guard.Inside ⟨.mapping id, n⟩ s.1.guard g) (hn : n < st₀.size) :
    Held id mapping st₀ (opened id s g n) := by
  have hw := hs.valid.sound
  have hlater : Later s.2 (opened id s g n).2 := later_opened hw
  have hcell : (opened id s g n).2.cells[s.2.size]? = some (.reserved none) := cell_opened hw
  have hlt := (List.getElem?_eq_some_iff.mp hcell).1
  refine ⟨⟨hlater.sound hw, fun {task progress t} hp ht => ?_⟩, hs.grown.trans hlater.grown, ?_,
    hs.good.imp hi.overrun fun hg => ?_⟩
  · rw [writes_opened g n] at hp
    split at hp
    · cases hp
      exact Option.some.inj ht ▸ hlt
    · exact Nat.lt_of_lt_of_le (hs.valid.memo hp ht) hlater.grown.size
  · show g.depth = g.visiting.length
    rw [hi.depth, hi.visiting, hs.balanced]
    rfl
  · have hvisiting : (opened id s g n).1.guard.visiting = ⟨.mapping id, n⟩ :: s.1.guard.visiting :=
      hi.visiting
    refine hg.written hw₀ hw hs.grown (writes_opened g n) hn hlater.grown.grows
      (fun _ _ h => h.opened hm hw) (fun a h => by cases h) (fun q r h => ?_)
      (fun task p r _ hv _ hc => ?_) fun task hv => List.mem_cons.mp (hvisiting ▸ hv)
    · cases h
      refine ⟨hvisiting ▸ List.mem_cons_self, s.2.size, rfl, hcell, fun task r' h => ?_⟩
      -- The place is new, so no task had it.
      obtain ⟨_, p, hq, hc⟩ := hg.running h
      cases hq
      exact absurd (List.getElem?_eq_some_iff.mp hc).1 (Nat.lt_irrefl _)
    · have hp := (List.getElem?_eq_some_iff.mp hc).1
      exact ⟨hvisiting ▸ List.mem_cons_of_mem _ hv, (hlater.grown.cell hp).trans hc⟩

end Open

section Close

variable {id : MappingId} {mapping : Mapping} {st₀ : Store} (hw₀ : st₀.WellFormed) {s s' : State}
variable {g : Guard Task} {n a : TypeId}

structure Closes (id : MappingId) (st₀ : Store) (s : State) (n p a b : TypeId) (st' : Store) :
    Prop where
  run : Action.run (closeFixedPoint ⟨.mapping id, n⟩ a) s = (b, s.1, st')
  grows : s.2.Grows st'
  cell {q : TypeId} : q ≠ p → st'.cells[q]? = s.2.cells[q]?
  given : s.1.memo.get? ⟨.mapping id, n⟩ = some (.running (some p) true) → b = p
  same : b = a ∨ isMapped st₀ n = true ∧ ∃ f, s.2.form? a = some f ∧ st'.form? b = some f

/-- The placeholder is given its body if it was handed out, and is forgotten otherwise. -/
theorem closes (hwalk : Walk id mapping st₀ (opened id s g n) s') (hw : s.2.WellFormed)
    (hbody : isMapped st₀ n = true ∧ (∃ body, s'.2.lookup a = some body ∧ body.isContainer = true) ∨
      s' = opened id s g n) :
    ∃ b st', Closes id st₀ s' n s.2.size a b st' := by
  have hcell : (opened id s g n).2.cells[s.2.size]? = some (.reserved none) := cell_opened hw
  have hlt := (List.getElem?_eq_some_iff.mp hcell).1
  have hcell' : s'.2.cells[s.2.size]? = some (.reserved none) :=
    (hwalk.keeps.later.grown.cell hlt).trans hcell
  have hopen : (opened id s g n).1.memo.get? ⟨.mapping id, n⟩ =
      some (.running (some s.2.size) false) := by
    rw [writes_opened g n, if_pos rfl]
  obtain ⟨r, hr⟩ := hwalk.keeps.running hopen
  cases r with
  | false =>
    refine ⟨a, s'.2, run_closeFixedPoint_unreferenced hr,
      (Store.Extends.refl _).grows, fun _ => rfl,
      fun h => ?_, .inl rfl⟩
    simp [hr] at h
  | true =>
    rcases hbody with ⟨hmapped, body, hlookup, hk⟩ | rfl
    · refine ⟨s.2.size, s'.2.filled s.2.size body, run_closeFixedPoint_referenced hr hcell' hlookup,
        Store.grows_filled hcell' hk, fun h => Store.filled_cell_ne h, fun _ => rfl,
        .inr ⟨hmapped, _,
        Store.form_of_lookup hlookup, Store.filled_form hcell'⟩⟩
    · simp [hopen] at hr

/-- The same answer under another name. -/
theorem solves_of_form {st' : Store} {I : TypeId → TypeId → Prop} {b : TypeId}
    (h : Solves mapping st₀ st' I n a) (hm : isMapped st₀ n = true)
    (hf : st'.form? b = st'.form? a) : Solves mapping st₀ st' I n b := by
  cases h with
  | object hn ha h hi => exact .object hn (hf.trans ha) h hi
  | array hn ha h => exact .array hn (hf.trans ha) h
  | tuple hn ha h => exact .tuple hn (hf.trans ha) h
  | other hn _ => simp [hm] at hn

variable (hm : s.1.memo.get? ⟨.mapping id, n⟩ = none) (hs : Held id mapping st₀ s)
variable (hi : Guard.Inside ⟨.mapping id, n⟩ s.1.guard g) (hn : n < st₀.size)
variable (hwalk : Walk id mapping st₀ (opened id s g n) s')

def closed (id : MappingId) (s : State) (n b : TypeId) (st' : Store) : State :=
  let task : Task := ⟨.mapping id, n⟩
  ({ s.1 with guard := (s.1.guard.leave task).rested, memo := s.1.memo.insert task (.done b) }, st')

theorem writes_closed {b : TypeId} {st' : Store} :
    Writes id s (closed id s n b st') n (.done b) := by
  intro task
  simp only [closed, Dict.get?_insert]

include hwalk

omit hm hs hi hn hw₀ in
theorem running_opened :
    ∃ r, s'.1.memo.get? ⟨.mapping id, n⟩ = some (.running (some s.2.size) r) :=
  hwalk.keeps.running (r := false) (by rw [writes_opened g n, if_pos rfl])

include hm hs hi hn hw₀

/-- Closing takes back nothing that was handed out. -/
theorem shows_closed {b : TypeId} {st' : Store} (hc : Closes id st₀ s' n s.2.size a b st')
    {x y : TypeId} (h : Shows id s' x y) : Shows id (closed id s' n b st') x y := by
  have hs' := hwalk.held (held_opened hw₀ hm hs hi hn)
  refine h.grows hs'.valid.sound hc.grows fun hmemo => ?_
  rw [writes_closed]
  split
  · rename_i he
    obtain ⟨r, hown⟩ := running_opened hwalk
    rw [he, hown] at hmemo
    rcases hmemo with hmemo | hmemo
    · cases hmemo
    · cases hmemo
      rw [hc.given hown]
      exact .inl rfl
  · exact hmemo

/-- The answer that is written down solves its equation. -/
theorem good_closed {b : TypeId} {st' : Store} (hc : Closes id st₀ s' n s.2.size a b st')
    (hkept : s.1.guard.Kept (closed id s' n b st').1.guard) (hg : Good id mapping st₀ s')
    (hsolves : Solves mapping st₀ s'.2 (Shows id s') n a) :
    Good id mapping st₀ (closed id s' n b st') := by
  have hs' := hwalk.held (held_opened hw₀ hm hs hi hn)
  have hw' := hs'.valid.sound
  have hshows {x y : TypeId} (h : Shows id s' x y) : Shows id (closed id s' n b st') x y :=
    shows_closed hw₀ hm hs hi hn hwalk hc h
  obtain ⟨r, hown⟩ := running_opened hwalk
  have hvisiting : s'.1.guard.visiting = ⟨.mapping id, n⟩ :: s.1.guard.visiting :=
    hwalk.guard.visiting.trans hi.visiting
  refine hg.written hw₀ hw' hs'.grown writes_closed hn hc.grows (fun _ _ h => hshows h)
    (fun _ h => ?_) (fun q r h => by cases h) (fun task p r hne hv hp hcell => ?_) fun task hv => ?_
  · cases h
    have hsolved := hsolves.grows hw₀ hw' hc.grows hs'.grown.size fun x y h =>
      ⟨h.lt_size, hshows h⟩
    rcases hc.same with rfl | ⟨hmapped, f, ha, hb⟩
    · exact hsolved
    · exact solves_of_form hsolved hmapped (hb.trans (hw'.form_grows hc.grows ha).symm)
  · have hp' : p ≠ s.2.size := by
      rintro rfl
      exact hne (hg.apart hp hown)
    rw [hvisiting] at hv
    exact ⟨hkept.visiting ▸ (List.mem_cons.mp hv).resolve_left hne, (hc.cell hp').trans hcell⟩
  · rw [hkept.visiting] at hv
    exact .inr (hvisiting ▸ List.mem_cons_of_mem _ hv)

/-- The walk goes on from where the answer at `n` is remembered. -/
theorem walk_closed {b : TypeId} {st' : Store} (hc : Closes id st₀ s' n s.2.size a b st')
    (hsolves : s'.1.guard.overrun = true ∨ Solves mapping st₀ s'.2 (Shows id s') n a)
    (hkeeps : Keeps Valid s (closed id s' n b st')) (hb : b < st'.size) :
    Walk id mapping st₀ s (closed id s' n b st') ∧ Answers id (closed id s' n b st') n b := by
  have hs' := hwalk.held (held_opened hw₀ hm hs hi hn)
  have hkept : s.1.guard.Kept (closed id s' n b st').1.guard :=
    (hi.leave hwalk.guard).rested hs.balanced
  have hover (h : s'.1.guard.overrun = true) : (closed id s' n b st').1.guard.overrun = true := by
    show (s'.1.guard.leave ⟨.mapping id, n⟩).rested.overrun = true
    rw [Guard.rested_overrun, Guard.leave_overrun]
    exact h
  have hgood : (closed id s' n b st').1.guard.overrun = true ∨
      Good id mapping st₀ (closed id s' n b st') := by
    rcases hs'.good with ho | hg
    · exact .inl (hover ho)
    · exact hsolves.imp hover (good_closed hw₀ hm hs hi hn hwalk hc hkept hg)
  have hvalid := hkeeps.held hs.valid
  have hshows {x y : TypeId} (h : Shows id s x y) : Shows id (closed id s' n b st') x y :=
    shows_closed hw₀ hm hs hi hn hwalk hc (hwalk.shows (later_opened hs.valid.sound |>.sound
      hs.valid.sound) (h.opened hm hs.valid.sound))
  refine ⟨⟨hkeeps, hkept, fun _ => hshows, fun _ => ⟨hvalid, ?_, ?_, hgood⟩⟩, hb,
    hgood.imp_right fun hg => hg.shows hvalid.sound (by rw [writes_closed, if_pos rfl])⟩
  · exact hs.grown.trans hkeeps.later.grown
  · rw [hkept.depth, hkept.visiting]
    exact hs.balanced

end Close

section Member

variable {id : MappingId} {mapping : Mapping} {st₀ : Store} (hw₀ : st₀.WellFormed)
variable (hk : mapping.keys = .all) (hv : mapping.value = .deep) {member : TypeId → EvalM TypeId}
variable {s : State} {n : TypeId} (hs : Held id mapping st₀ s) (hn : n < st₀.size)

include hw₀ hs

include hk hv hn in
/-- Mapping the values of a type, if the levels below do their part. -/
theorem leads_structure
    (hmember : ∀ s' c, s.1.guard.Kept s'.1.guard → Held id mapping st₀ s' → c < st₀.size →
      Leads (Walk id mapping st₀) (member c) s' fun a s'' => Answers id s'' c a) :
    Leads (Walk id mapping st₀) (mapStructure mapping member n) s fun a s' =>
      (s'.1.guard.overrun = true ∨ Solves mapping st₀ s'.2 (Shows id s') n a) ∧
        (isMapped st₀ n = true ∧ (∃ body, s'.2.lookup a = some body ∧ body.isContainer = true) ∨
          s' = s) := by
  have hform := hw₀.form_extends hs.grown hn
  have hvalues (s' : State) (h' : Walk id mapping st₀ s s') (c : TypeId) (hc : c ∈ s.2.mentions n) :
      Leads (Walk id mapping st₀) (mapValue mapping member c) s' (Values id st₀ c) := by
    rw [hw₀.mentions_extends hs.grown hn] at hc
    exact leads_mapValue hw₀ hmember hv h'.guard (h'.held hs) ((hw₀.sound n).inside hc)
  refine (leads_mapMade (fun h => h.keeps.later) (fun h => walk_store hw₀ h) (stable_values hw₀)
    (fun h => h.lt_size) hs.valid.sound hvalues).mono fun a s' h' h => ?_
  rw [hform] at h
  rcases h with ⟨f, hf, y, hy, hmade⟩ | ⟨hun, rfl, rfl⟩
  · refine ⟨?_, .inl ⟨by simp [isMapped, hf, hy.source], ?_⟩⟩
    · by_cases ho : s'.1.guard.overrun = true
      · exact .inl ho
      · exact .inr ((hy.mono fun v w h => h.image.resolve_left ho).solves hk hf hmade.form)
    · obtain ⟨body, hb, rfl⟩ := Store.lookup_of_form hmade.form
      exact ⟨body, hb, (Store.form_isContainer _ body).symm.trans hy.container⟩
  · exact ⟨.inr (.other (hun.isMapped hk) rfl), .inr rfl⟩

theorem walk_again {p : TypeId} {r : Bool}
    (hm : s.1.memo.get? ⟨.mapping id, n⟩ = some (.running (some p) r)) :
    let s' := ({ s.1 with memo := s.1.memo.insert ⟨.mapping id, n⟩ (.running (some p) true) }, s.2)
    Walk id mapping st₀ s s' ∧ Answers id s' n p := by
  intro s'
  have hwrites : Writes id s s' n (.running (some p) true) := fun _ => Dict.get?_insert ..
  have hshows {x y : TypeId} (h : Shows id s x y) : Shows id s' x y := by
    refine ⟨h.lt_size, h.single, ?_⟩
    rw [hwrites]
    split
    · rename_i he
      have hx := h.memo
      rw [he, hm] at hx
      rcases hx with hx | hx <;> cases hx
      exact .inr rfl
    · exact h.memo
  have hlt : p < s.2.size := hs.valid.memo hm rfl
  refine ⟨⟨keeps_again hm, .refl _, fun _ => hshows, fun hs => ?_⟩, hlt,
    hs.good.imp_right fun hg => ?_⟩
  · refine ⟨(keeps_again hm).held hs.valid, hs.grown, hs.balanced, hs.good.imp_right fun hg => ?_⟩
    refine hg.written hw₀ hs.valid.sound hs.grown hwrites (hg.key hm).2 (Store.Extends.refl _).grows
      (fun _ _ h => hshows h) (fun a h => by cases h) (fun q r h => ?_)
      (fun _ _ _ _ hv _ hc => ⟨hv, hc⟩) fun _ => .inr
    cases h
    obtain ⟨hv, _, hq, hc⟩ := hg.running hm
    cases hq
    exact ⟨hv, p, rfl, hc, fun task r' h => hg.apart h hm⟩
  · obtain ⟨_, q, hq, hc⟩ := hg.running hm
    cases hq
    refine ⟨hlt, fun ms hf => ?_, .inr (by rw [hwrites, if_pos rfl])⟩
    have hf : s.2.form? p = some (.union ms) := hf
    simp [Store.form?, Store.lookup, hc, Cell.node?] at hf

variable (hget : st₀.mappings.get? id = some mapping)

omit hw₀ in
include hget in
/-- The mapping keeps its number. -/
theorem mapping_eq : s.2.mapping id = mapping := by
  have hlater : s.2.mappings.get? id = some mapping :=
    hs.grown.mappings.get? hget
  simp [Store.mapping, hlater]

include hget hv hn hk in
/-- One level answers, if the levels below do. -/
theorem leads_mapMember (hsafe : ∀ s, Evaluator.Held Valid s → ∀ x < s.2.size, Safe (member x) s)
    (hmember : ∀ g, Guard.Inside ⟨.mapping id, n⟩ s.1.guard g → ∀ s' c, g.Kept s'.1.guard →
      Held id mapping st₀ s' → c < st₀.size →
      Leads (Walk id mapping st₀) (member c) s' fun a s'' => Answers id s'' c a) :
    Leads (Walk id mapping st₀) (mapMember id member n) s fun a s' => Answers id s' n a := by
  refine leads_memoized (walk_guard hw₀ (.refl _) _) ?_
  let s₀ : State := asked s ⟨.mapping id, n⟩
  have hs₀ : Held id mapping st₀ s₀ := held_guard hw₀ hs (.refl _) _
  have hw := hs₀.valid.sound
  refine leads_retrieve (fun a h => ?_) (fun r h => ?_) (fun p r h => walk_again hw₀ hs₀ h)
    (fun h g hkept hwhy => ?_) (fun h g hi => ?_)
  · exact ⟨Evolution.refl s₀, hs₀.valid.memo h rfl, hs₀.good.imp_right fun hg => hg.shows hw h⟩
  · refine ⟨Evolution.refl s₀, Store.never_lt_size hw, hs₀.good.imp_right fun hg => ?_⟩
    obtain ⟨_, p, hp, _⟩ := hg.running h
    cases hp
  · refine ⟨walk_guard hw₀ hkept _, Store.never_lt_size hw, .inl ?_⟩
    rcases hwhy with hvisited | ho
    · exact hkept.overrun (hs₀.good.resolve_right fun hg => hg.visited hvisited h)
    · exact ho
  · intro r s'
    let task : Task := ⟨.mapping id, n⟩
    let s₁ : State :=
      ({ s₀.1 with guard := g, memo := s₀.1.memo.insert task (.running none false) }, s₀.2)
    have hs₁ : Evaluator.Held Valid s₁ := hs₀.valid.insert nofun
    have hm₁ : s₁.1.memo.get? task = some (.running none false) := by
      rw [Dict.get?_insert, if_pos rfl]
    have hr : r = Action.run (openFixedPoint task >>= fun _ =>
        mapStructure mapping member n >>= closeFixedPoint task) s₁ := by
      show Action.run (if (s₀.2.mapping id).value = .deep then _ else _ : EvalM TypeId) s₁ = _
      rw [mapping_eq hs₀ hget, if_pos hv]
    obtain ⟨hkeeps, hlt⟩ := safe_deep hsafe hs₁ hm₁ mapping n
    obtain ⟨hwalk, hsolves, hbody⟩ :=
      leads_structure hw₀ hk hv (held_opened hw₀ h hs₀ hi hn) hn (hmember g hi)
    obtain ⟨b, st', hc⟩ := closes hwalk hw hbody
    have hclosed : r = (b, (Action.run (mapStructure mapping member n) (opened id s₀ g n)).2.1,
        st') :=
      hr.trans hc.run
    rw [← hr] at hkeeps hlt
    clear_value r
    subst hclosed
    exact walk_closed hw₀ h hs₀ hi hn hwalk hc hsolves (hs₀.valid.keeps_done h hkeeps hlt _) hlt

end Member

section Run

variable {id : MappingId} {mapping : Mapping} {st₀ : Store} (hw₀ : st₀.WellFormed)
variable (hget : st₀.mappings.get? id = some mapping) (hk : mapping.keys = .all)
variable (hv : mapping.value = .deep)

include hw₀ hget hk hv

/-- Every level answers, since the guard stops the walk before the last one. -/
theorem leads_descend {room : Nat} {s : State} {n : TypeId} (hs : Held id mapping st₀ s)
    (hn : n < st₀.size) (hroom : s.1.guard.limits.depth ≤ room + s.1.guard.depth) :
    Leads (Walk id mapping st₀) (descend (mapMember id) (fun _ => return .never) room n) s
      fun a s' => Answers id s' n a := by
  induction room generalizing s n with
  | zero =>
    refine leads_mapMember hw₀ hk hv hs hn hget (fun s hs x _ => ?_) fun g hi => ?_
    · exact Leads.pure (Store.never_lt_size hs.sound)
    · have := hi.room
      omega
  | succ room ih =>
    refine leads_mapMember hw₀ hk hv hs hn hget (fun s hs x hx => ?_)
      fun g hi s' c hkept hs' hc => ih hs' hc ?_
    · exact safe_descend id room hs hx
    · rw [hkept.limits, hkept.depth, hi.limits, hi.depth]
      omega

omit hget hk hv in
/-- A walk that starts with nothing remembered. -/
theorem held_start (limits : Limits) : Held id mapping st₀ (start limits, st₀) := by
  have hnone (task : Task) : (start limits).memo.get? task = none := rfl
  refine ⟨⟨hw₀, fun hm => ?_⟩, .refl _, rfl, .inr ⟨fun hm => ?_, fun hm => ?_, fun hm => ?_,
    fun hm => ?_, nofun⟩⟩ <;> simp [hnone] at hm

end Run

end Deep

def optionalDeep : Mapping := { value := .deep, optional := some .add }

/-- The trees `T = { value: string; left: T | null; children: T[] }`. -/
def trees : Store := Construction.afterAll .initial
  [.reserve, .union [12, .null], .array 12,
    .defineObject 12 { fields := [{ name := "value", type := .string },
      { name := "left", type := 13 },
      { name := "children", type := 14 }] },
    .mapping optionalDeep]

end TypeCalculus.Evaluator
