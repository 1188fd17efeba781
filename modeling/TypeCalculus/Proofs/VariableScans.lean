import TypeCalculus.Proofs.HashConsing

namespace TypeCalculus.Store

variable {st : Store}

def signature? (st : Store) : Node → Option Signature
  | .function id | .constructor id => some (st.signature id)
  | _ => none

inductive HasPart (st : Store) : Node → TypeId → Prop
  | unionMember {id : ListId} {c : TypeId} (h : c ∈ st.list id) : HasPart st (.union id) c
  | intersectionMember {id : ListId} {c : TypeId} (h : c ∈ st.list id) :
      HasPart st (.intersection id) c
  | argument {kind : Wrapper} {id : ListId} {c : TypeId} (h : c ∈ st.list id) :
      HasPart st (.wrapper kind id) c
  | field {id : ShapeId} {field : Field} (h : field ∈ (st.shape id).fields) :
      HasPart st (.object id) field.type
  | index {id : ShapeId} {index : IndexSignature} (h : (st.shape id).index = some index) :
    HasPart st (.object id) index.type
  | element (c : TypeId) : HasPart st (.array c) c
  | slot {id : TupleId} {slot : Slot} (h : slot ∈ st.slots id) : HasPart st (.tuple id) slot.type
  | receiver {node : Node} {signature : Signature} {c : TypeId}
      (hs : st.signature? node = some signature)
    (h : signature.receiver = some c) : HasPart st node c
  | param {node : Node} {signature : Signature} {slot : Slot}
      (hs : st.signature? node = some signature)
    (h : slot ∈ signature.params) : HasPart st node slot.type
  | result {node : Node} {signature : Signature} (hs : st.signature? node = some signature) :
    HasPart st node signature.result

def Edge (st : Store) (t c : TypeId) : Prop := ∃ node, st.lookup t = some node ∧ st.HasPart node c

/-- A type with this body can be reached. -/
def Occurs (st : Store) (node : Node) (t : TypeId) : Prop :=
  ∃ u, Relation.ReflTransGen st.Edge t u ∧ st.lookup u = some node

theorem mem_signature_types {signature : Signature} {c : TypeId} :
    c ∈ (Form.function signature).mentions ↔
      signature.receiver = some c ∨ (∃ slot ∈ signature.params, slot.type = c) ∨
      c = signature.result := by
  simp only [Form.mentions, List.mem_append, Option.mem_toList, List.mem_map,
    List.mem_singleton, or_assoc]

theorem children_of_signature {node : Node} {signature : Signature}
    (h : st.signature? node = some signature) :
    st.children node = (Form.function signature).mentions := by
  cases node with
  | function id | constructor id =>
    cases h
    rfl
  | _ => cases h

/-- What is listed as mentioned by a node are its parts. -/
theorem mem_children_iff {node : Node} {c : TypeId} : c ∈ st.children node ↔ st.HasPart node c := by
  constructor
  · intro h
    have signed {signature : Signature} (hs : st.signature? node = some signature)
        (hc : c ∈ (Form.function signature).mentions) : st.HasPart node c := by
      rcases mem_signature_types.mp hc with hreceiver | ⟨slot, hslot, rfl⟩ | rfl
      · exact .receiver hs hreceiver
      · exact .param hs hslot
      · exact .result hs
    cases node with
    | union id => exact .unionMember h
    | intersection id => exact .intersectionMember h
    | wrapper kind id => exact .argument h
    | object id =>
      rcases List.mem_append.mp h with h | h
      · obtain ⟨field, hfield, rfl⟩ := List.mem_map.mp h
        exact .field hfield
      · obtain ⟨index, hindex, rfl⟩ := List.mem_map.mp h
        exact .index (Option.mem_toList.mp hindex)
    | array element =>
      obtain rfl := List.mem_singleton.mp h
      exact .element c
    | tuple id =>
      obtain ⟨slot, hslot, rfl⟩ := List.mem_map.mp h
      exact .slot hslot
    | function id => exact signed rfl h
    | constructor id => exact signed rfl h
    | intrinsic kind => cases h
    | literal value => cases h
    | infer name => cases h
    | param name => cases h
  · intro h
    cases h with
    | unionMember h => exact h
    | intersectionMember h => exact h
    | argument h => exact h
    | field h => exact List.mem_append_left _ (List.mem_map_of_mem h)
    | index h => exact List.mem_append_right _ (List.mem_map_of_mem (Option.mem_toList.mpr h))
    | element => exact List.mem_singleton.mpr rfl
    | slot h => exact List.mem_map_of_mem h
    | receiver hs h =>
      rw [children_of_signature hs]
      exact mem_signature_types.mpr (.inl h)
    | param hs h =>
      rw [children_of_signature hs]
      exact mem_signature_types.mpr (.inr (.inl ⟨_, h, rfl⟩))
    | result hs =>
      rw [children_of_signature hs]
      exact mem_signature_types.mpr (.inr (.inr rfl))

theorem edge_iff {t c : TypeId} : st.Edge t c ↔ c ∈ st.mentions t := by
  unfold Edge mentions
  cases st.lookup t with
  | none => simp
  | some node => simp [mem_children_iff]

theorem occurs_iff {node : Node} {t : TypeId} :
    st.Occurs node t ↔ ∃ u, st.Reaches t u ∧ st.lookup u = some node := by
  have hsame : st.Edge = fun t c => c ∈ st.mentions t :=
    funext fun t => funext fun c => propext edge_iff
  rw [Occurs, hsame]
  rfl

/-- A scan says whether one of the nodes that it looks for occurs. -/
theorem Founded.reaches_iff_occurs (h : st.Founded) {test : Node → Bool}
    (htest : ∀ kind, test (.intrinsic kind) = false) (t : TypeId) :
    st.reaches test t = true ↔ ∃ node, test node = true ∧ st.Occurs node t := by
  rw [reaches_iff h htest]
  constructor
  · rintro ⟨u, node, hu, hnode, ht⟩
    exact ⟨node, ht, occurs_iff.mpr ⟨u, hu, hnode⟩⟩
  · rintro ⟨node, ht, hoccurs⟩
    obtain ⟨u, hu, hnode⟩ := occurs_iff.mp hoccurs
    exact ⟨u, node, hu, hnode, ht⟩

theorem containsVariables_eq (st : Store) (t : TypeId) :
    st.containsVariables t = st.containsBound (fun _ => true) t := rfl

section Scans

variable (h : st.Founded) (t : TypeId)

include h

theorem Founded.containsInfer_iff :
    st.containsInfer t = true ↔ ∃ name, st.Occurs (.infer name) t := by
  rw [containsInfer, h.reaches_iff_occurs fun _ => rfl]
  constructor
  · rintro ⟨node, htest, hoccurs⟩
    cases node with
    | infer name => exact ⟨name, hoccurs⟩
    | _ => cases htest
  · rintro ⟨name, hoccurs⟩
    exact ⟨_, rfl, hoccurs⟩

/-- Which parameters count as variables is up to the scan; infer variables always do. -/
theorem Founded.containsBound_iff (isBound : String → Bool) :
    st.containsBound isBound t = true ↔
      ∃ name, st.Occurs (.infer name) t ∨ isBound name = true ∧ st.Occurs (.param name) t := by
  rw [containsBound, h.reaches_iff_occurs fun _ => rfl]
  constructor
  · rintro ⟨node, htest, hoccurs⟩
    cases node with
    | infer name => exact ⟨name, .inl hoccurs⟩
    | param name => exact ⟨name, .inr ⟨htest, hoccurs⟩⟩
    | _ => cases htest
  · rintro ⟨name, hoccurs | ⟨hbound, hoccurs⟩⟩
    · exact ⟨_, rfl, hoccurs⟩
    · exact ⟨.param name, hbound, hoccurs⟩

/-- The infer variables that are listed are those that occur. -/
theorem Founded.mem_inferVariables (name : String) :
    name ∈ st.inferVariables t ↔ st.Occurs (.infer name) t := by
  rw [inferVariables, List.mem_eraseDups, List.mem_filterMap, occurs_iff]
  constructor
  · rintro ⟨u, hu, hname⟩
    split at hname
    · rename_i found hnode
      cases hname
      exact ⟨u, ((mem_reachable h).mp hu).2, hnode⟩
    · cases hname
  · rintro ⟨u, hu, hnode⟩
    have hfollowed : st.Followed u := by
      refine ⟨Bool.eq_false_iff.mpr fun hi => ?_, by rw [hnode]; rfl⟩
      obtain ⟨kind, rfl⟩ := TypeId.isIntrinsic_iff.mp hi
      rw [h.lookup kind] at hnode
      cases hnode
    exact ⟨u, (mem_reachable h).mpr ⟨hfollowed, hu⟩, by rw [hnode]⟩

end Scans

/-- In every store, whatever was interned, reserved and defined in it, and from whichever place a
scan begins, it answers by what can be reached from there: whether infer variables are among it,
whether variables of any sort are, whether any are that a substitution has to replace, and which
infer variables these are. -/
theorem Reached.scans_find_variables (h : st.Reached) (t : TypeId) :
    (st.containsInfer t = true ↔ ∃ name, st.Occurs (.infer name) t) ∧
    (st.containsVariables t = true ↔
      ∃ name, st.Occurs (.infer name) t ∨ st.Occurs (.param name) t) ∧
    (∀ s : Substitution, st.containsBound s.params.contains t = true ↔
      ∃ name, st.Occurs (.infer name) t ∨ (s.params.get? name).isSome ∧ st.Occurs (.param name) t) ∧
    (st.inferVariables t).Nodup ∧
    ∀ name, name ∈ st.inferVariables t ↔ st.Occurs (.infer name) t := by
  have hfounded := h.founded
  refine ⟨hfounded.containsInfer_iff t, ?_, fun s => hfounded.containsBound_iff t s.params.contains,
    nodup_eraseDups _, hfounded.mem_inferVariables t⟩
  rw [containsVariables_eq, hfounded.containsBound_iff t]
  simp only [true_and]

/-- An array of functions that take it back, through a tuple with an empty placeholder, with a place
that is not there and with an infer variable; and an object that holds a parameter and the empty
placeholder. -/
def tangled : List Operation :=
  [.build .reserve, .build .reserve, .build (.infer "X"), .build (.param "T"),
    .build (.tuple [{ type := 12 }, { type := 13 }, { type := 99 }, { type := 14 }]),
    .build (.function { receiver := some 15, params := [{ type := 16 }], result := 12 }),
    .define 12 (.array 17),
    .build (.object { fields := [{ name := "x", type := 15 }, { name := "y", type := 13 }] })]

theorem Reached.scans_find_variables_tangled :
    let st := Operation.afterAll .initial tangled
    st.Reached ∧ 12 ∈ st.mentions 17 ∧ 17 ∈ st.mentions 12 ∧
      st.lookup 13 = none ∧ st.lookup 99 = none ∧
      st.Occurs (.infer "X") 12 ∧ st.inferVariables 12 = ["X"] ∧
      (∃ name, st.Occurs (.param name) 18) ∧ (∀ name, ¬ st.Occurs (.infer name) 18) ∧
      ∀ name, ¬ st.Occurs (.infer name) 99 ∧ ¬ st.Occurs (.param name) 99 := by
  intro st
  have hreached : st.Reached := Operation.reached_afterAll .initial tangled
  obtain ⟨_, _, _, _, hnames⟩ := hreached.scans_find_variables 12
  obtain ⟨hinfer, hvariables, _⟩ := hreached.scans_find_variables 18
  obtain ⟨_, hnowhere, _⟩ := hreached.scans_find_variables 99
  have hlist : st.inferVariables 12 = ["X"] := by decide +kernel
  have hnone : ¬ ∃ name, st.Occurs (.infer name) 18 := fun hsome =>
    absurd (hinfer.mpr hsome) (by decide +kernel)
  have hmissing : ¬ ∃ name, st.Occurs (.infer name) 99 ∨ st.Occurs (.param name) 99 := fun hsome =>
    absurd (hnowhere.mpr hsome) (by decide +kernel)
  obtain ⟨name, hsome⟩ := hvariables.mp (by decide +kernel)
  refine ⟨hreached, by decide +kernel, by decide +kernel, by decide +kernel, by decide +kernel,
    (hnames "X").mp (hlist ▸ List.mem_singleton.mpr rfl), hlist, ⟨name, ?_⟩, fun name hoccurs =>
    hnone ⟨name, hoccurs⟩, fun name => ⟨fun hoccurs => ?_, fun hoccurs => ?_⟩⟩
  · exact hsome.resolve_left fun hoccurs => hnone ⟨name, hoccurs⟩
  · exact hmissing ⟨name, .inl hoccurs⟩
  · exact hmissing ⟨name, .inr hoccurs⟩

end TypeCalculus.Store
