import TypeCalculus.Proofs.Discipline

namespace TypeCalculus

/-- What a slot gives way to when its type does. -/
def Store.splice (st : Store) (slot : Slot) (t : TypeId) : List Slot :=
  match slot.rest, st.form? t with
  | true, some (.tuple slots) => slots
  | _, _ => [{ slot with type := t }]

namespace Form

def replace (st : Store) (f : TypeId → TypeId) : Form → Form
  | .union members => .union (members.map f)
  | .intersection members => .intersection (members.map f)
  | .object shape => .object
    { fields := shape.fields.map fun field => { field with type := f field.type }
      index := shape.index.map fun index => { index with type := f index.type } }
  | .array element => .array (f element)
  | .tuple slots => .tuple (slots.flatMap fun slot => st.splice slot (f slot.type))
  | .function signature => .function
    { receiver := signature.receiver.map f
      params := signature.params.flatMap fun slot => st.splice slot (f slot.type)
      result := f signature.result }
  | .constructor signature => .constructor
    { params := signature.params.flatMap fun slot => st.splice slot (f slot.type)
      result := f signature.result }
  | .wrapper kind args => .wrapper kind (args.map f)
  | form => form

end Form

namespace Store

variable {st st' : Store}

/-- A slot gives way to one slot, or to those of the tuple that it comes to hold. -/
theorem mem_splice {slot part : Slot} {t : TypeId} (h : part ∈ st.splice slot t) :
    part.type = t ∨ part.type ∈ st.mentions t := by
  unfold splice at h
  split at h
  · rename_i hf
    exact .inr (mentions_of_form hf ▸ List.mem_map_of_mem h)
  · rw [List.mem_singleton.mp h]
    exact .inl rfl

theorem splice_congr (slot : Slot) {t : TypeId} (h : st'.form? t = st.form? t) :
    st'.splice slot t = st.splice slot t := by
  rw [splice, splice, h]

end Store

namespace Form

variable {st st' : Store} {f g : TypeId → TypeId}

section Mentions

theorem mem_spliced {slots : List Slot} {c : TypeId}
    (hc : c ∈ (slots.flatMap fun slot => st.splice slot (f slot.type)).map Slot.type) :
    ∃ x ∈ slots.map Slot.type, c = f x ∨ c ∈ st.mentions (f x) := by
  obtain ⟨part, hpart, rfl⟩ := List.mem_map.mp hc
  obtain ⟨slot, hslot, hpart⟩ := List.mem_flatMap.mp hpart
  exact ⟨slot.type, List.mem_map_of_mem hslot, Store.mem_splice hpart⟩

/-- The parts of the new form stand in place of old ones, or are slots of a tuple that does. -/
theorem mem_replace {form : Form} {c : TypeId} (hc : c ∈ (form.replace st f).mentions) :
    ∃ x ∈ form.mentions, c = f x ∨ c ∈ st.mentions (f x) := by
  have hmap {xs : List TypeId} (h : c ∈ xs.map f) : ∃ x ∈ xs, c = f x ∨ c ∈ st.mentions (f x) := by
    obtain ⟨x, hx, rfl⟩ := List.mem_map.mp h
    exact ⟨x, hx, .inl rfl⟩
  cases form with
  | intrinsic | literal | infer | param => cases hc
  | union | intersection | wrapper => exact hmap hc
  | array element => exact hmap hc
  | tuple slots => exact mem_spliced hc
  | object shape =>
    apply hmap
    simp only [replace, mentions, Shape.types, List.map_append, List.map_map,
      Option.toList_map] at hc ⊢
    exact hc
  | function signature =>
    simp only [replace, mentions, List.mem_append, List.mem_singleton, Option.mem_toList,
      Option.map_eq_some_iff] at hc ⊢
    rcases hc with (⟨x, hx, rfl⟩ | hc) | rfl
    · exact ⟨x, .inl (.inl hx), .inl rfl⟩
    · obtain ⟨x, hx, h⟩ := mem_spliced hc
      exact ⟨x, .inl (.inr hx), h⟩
    · exact ⟨_, .inr rfl, .inl rfl⟩
  | constructor signature =>
    simp only [replace, mentions, List.mem_append, List.mem_singleton, Option.toList_none,
      List.nil_append] at hc ⊢
    rcases hc with hc | rfl
    · obtain ⟨x, hx, h⟩ := mem_spliced hc
      exact ⟨x, .inl (.inr hx), h⟩
    · exact ⟨_, .inr rfl, .inl rfl⟩

end Mentions

section Congruence

/-- Only what stands in place of the types of the slots counts. -/
theorem spliced_congr {slots : List Slot}
    (h : ∀ c ∈ slots.map Slot.type, g c = f c ∧ st'.form? (f c) = st.form? (f c)) :
    (slots.flatMap fun slot => st'.splice slot (g slot.type)) =
      slots.flatMap fun slot => st.splice slot (f slot.type) := by
  apply List.flatMap_congr
  intro slot hm
  obtain ⟨he, hform⟩ := h slot.type (List.mem_map_of_mem hm)
  rw [he, Store.splice_congr slot hform]

/-- Only what stands in place of the parts counts, and whether it is a tuple. -/
theorem replace_congr {form : Form}
    (h : ∀ c ∈ form.mentions, g c = f c ∧ st'.form? (f c) = st.form? (f c)) :
    form.replace st' g = form.replace st f := by
  have hmap {xs : List TypeId} (hx : ∀ x ∈ xs, x ∈ form.mentions) : xs.map g = xs.map f :=
    List.map_congr_left fun x hm => (h x (hx x hm)).1
  cases form with
  | intrinsic | literal | infer | param => rfl
  | union members => exact congrArg Form.union (hmap fun _ h => h)
  | intersection members => exact congrArg Form.intersection (hmap fun _ h => h)
  | wrapper kind args => exact congrArg (Form.wrapper kind) (hmap fun _ h => h)
  | array element => exact congrArg Form.array (h element (by simp [mentions])).1
  | tuple slots => exact congrArg Form.tuple (spliced_congr h)
  | object shape =>
    have hfields : (shape.fields.map fun field => { field with type := g field.type }) =
        shape.fields.map fun field => { field with type := f field.type } := by
      apply List.map_congr_left
      intro field hm
      rw [(h field.type (List.mem_append_left _ (List.mem_map_of_mem hm))).1]
    have hindex : (shape.index.map fun index => { index with type := g index.type }) =
        shape.index.map fun index => { index with type := f index.type } := by
      cases hi : shape.index with
      | none => rfl
      | some index =>
        have he := (h index.type (by simp [mentions, Shape.types, hi])).1
        simp only [Option.map_some, he]
    simp only [replace, hfields, hindex]
  | function signature =>
    have hreceiver : signature.receiver.map g = signature.receiver.map f := by
      cases hr : signature.receiver with
      | none => rfl
      | some t => rw [Option.map_some, Option.map_some, (h t (by simp [mentions, hr])).1]
    have hparams := spliced_congr fun c hc => h c (by simp only [mentions, List.mem_append]; tauto)
    have hresult := (h signature.result (by simp [mentions])).1
    simp only [replace, hreceiver, hparams, hresult]
  | constructor signature =>
    have hparams := spliced_congr fun c hc => h c (by simp only [mentions, List.mem_append]; tauto)
    have hresult := (h signature.result (by simp [mentions])).1
    simp only [replace, hparams, hresult]

end Congruence

theorem intern_again {node : Node} (hn : ∀ kind, node ≠ .intrinsic kind)
    (hw : ((Store.intern node).run st).2.Widens st') :
    (Store.intern node).run st' = (((Store.intern node).run st).1, st') :=
  Discipline.echo_intern hn .solid st st' ⟨(fun h => by cases h), hw, fun h => absurd rfl h⟩

theorem entry_again {table : StoreM Nat} {make : Nat → Node}
    (hn : ∀ id kind, make id ≠ .intrinsic kind) (ht : Echo (Discipline.Again .solid) table st)
    (hw : ((table >>= fun id => Store.intern (make id)).run st).2.Widens st') :
    (table >>= fun id => Store.intern (make id)).run st' =
      (((table >>= fun id => Store.intern (make id)).run st).1, st') := by
  have hrun (st : Store) : (table >>= fun id => Store.intern (make id)).run st =
      (Store.intern (make (table.run st).1)).run (table.run st).2 := rfl
  rw [hrun] at hw ⊢
  have htable : table.run st' = ((table.run st).1, st') :=
    ht st' ⟨(fun h => by cases h), (Store.extends_intern _ _).widens.trans hw,
      fun h => absurd rfl h⟩
  rw [hrun, htable]
  exact intern_again (hn _) hw

theorem planned_again {act : StoreM TypeId} {plan : Store → TypeId ⊕ List TypeId}
    {make : ListId → Node} (hrun : ∀ st, act.run st = match plan st with
      | .inl t => (t, st)
      | .inr ms => (Store.internList ms >>= fun id => Store.intern (make id)).run st)
    (hn : ∀ id kind, make id ≠ .intrinsic kind) (hplan : plan st' = plan st)
    (hw : (act.run st).2.Widens st') : act.run st' = ((act.run st).1, st') := by
  rw [hrun] at hw ⊢
  rw [hrun, hplan]
  cases hp : plan st with
  | inl t => rfl
  | inr ms =>
    simp only [hp] at hw ⊢
    exact entry_again hn (Discipline.runs_internList ms).echo hw

/-- The same type is found again where its parts read the same. -/
theorem build_again (form : Form) (hw : (form.build.run st).2.Widens st')
    (hs : ∀ c ∈ form.mentions, st.Steady st' c) :
    form.build.run st' = ((form.build.run st).1, st') := by
  cases form with
  | intrinsic kind => rfl
  | literal value => exact intern_again (fun _ h => by cases h) hw
  | infer name => exact intern_again (fun _ h => by cases h) hw
  | param name => exact intern_again (fun _ h => by cases h) hw
  | array element => exact intern_again (fun _ h => by cases h) hw
  | object shape =>
    exact entry_again (fun _ _ h => by cases h)
      (Discipline.runs_internShape fun h => by cases h).echo hw
  | tuple slots =>
    exact entry_again (fun _ _ h => by cases h) (Discipline.runs_internSlots slots).echo hw
  | function signature =>
    exact entry_again (fun _ _ h => by cases h) (Discipline.runs_internSignature signature).echo hw
  | constructor signature =>
    exact entry_again (fun _ _ h => by cases h) (Discipline.runs_internSignature _).echo hw
  | wrapper kind args =>
    exact entry_again (fun _ _ h => by cases h) (Discipline.runs_internList args).echo hw
  | union members =>
    exact planned_again (fun st => Store.run_mkUnion st members) (fun _ _ h => by cases h)
      (Store.unionPlan_steady hs) hw
  | intersection members =>
    exact planned_again (fun st => Store.run_mkIntersection st members) (fun _ _ h => by cases h)
      (Store.intersectionPlan_steady hs) hw

end Form

end TypeCalculus
