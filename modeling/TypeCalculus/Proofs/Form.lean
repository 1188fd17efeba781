import Mathlib.Logic.Relation
import TypeCalculus.Store.Build
import TypeCalculus.Store.Reach

namespace TypeCalculus

inductive Form
  | intrinsic (kind : Intrinsic)
  | literal (value : Literal)
  | union (members : List TypeId)
  | intersection (members : List TypeId)
  | object (shape : Shape)
  | array (element : TypeId)
  | tuple (elements : List Slot)
  | function (signature : Signature)
  | constructor (signature : Signature)
  | wrapper (kind : Wrapper) (args : List TypeId)
  | infer (name : String)
  | param (name : String)
deriving DecidableEq

def Shape.types (shape : Shape) : List TypeId :=
  shape.fields.map Field.type ++ shape.index.toList.map IndexSignature.type

namespace Form

def mentions : Form → List TypeId
  | .intrinsic _ | .literal _ | .infer _ | .param _ => []
  | .union members | .intersection members | .wrapper _ members => members
  | .object shape => shape.types
  | .array element => [element]
  | .tuple elements => elements.map Slot.type
  | .function signature | .constructor signature =>
    signature.receiver.toList ++ signature.params.map Slot.type ++ [signature.result]

def slots : Form → List Slot
  | .tuple elements => elements
  | .function signature | .constructor signature => signature.params
  | _ => []

def isUnion : Form → Bool
  | .union _ => true
  | _ => false

def isIntersection : Form → Bool
  | .intersection _ => true
  | _ => false

def isContainer : Form → Bool
  | .object _ | .array _ | .tuple _ => true
  | _ => false

def isLeaf : Form → Bool
  | .intrinsic _ | .literal _ | .infer _ | .param _ => true
  | _ => false

/-- The forms that their action makes as they are given. Unions and intersections are normalised,
and constructors have no receiver. -/
def isExact : Form → Bool
  | .intrinsic _ | .union _ | .intersection _ => false
  | .constructor signature => signature.receiver.isNone
  | _ => true

theorem isExact_of_isContainer {f : Form} (h : f.isContainer = true) : f.isExact = true := by
  cases f <;> first | rfl | cases h

def build : Form → StoreM TypeId
  | .intrinsic kind => return kind.id
  | .literal value => Store.mkLiteral value
  | .infer name => Store.mkInfer name
  | .param name => Store.mkParam name
  | .union members => Store.mkUnion members
  | .intersection members => Store.mkIntersection members
  | .object shape => Store.mkObject shape
  | .array element => Store.mkArray element
  | .tuple slots => Store.mkTuple slots
  | .function signature => Store.mkFunction signature
  | .constructor signature => Store.mkConstructor signature.params signature.result
  | .wrapper kind args => Store.mkWrapper kind args

/-- Without its receiver a constructor mentions no more. -/
theorem mem_constructor {signature : Signature} {c : TypeId}
    (h : c ∈ (constructor { params := signature.params, result := signature.result }).mentions) :
    c ∈ (constructor signature).mentions := by
  simp only [mentions, Option.toList_none, List.nil_append, List.mem_append] at h ⊢
  exact h.imp_left .inr

theorem slot_mentioned {f : Form} {slot : Slot} (h : slot ∈ f.slots) : slot.type ∈ f.mentions := by
  cases f <;> simp only [slots, mentions, List.mem_append, List.mem_map] at h ⊢
  case tuple => exact ⟨slot, h, rfl⟩
  case function => exact Or.inl (Or.inr ⟨slot, h, rfl⟩)
  case constructor => exact Or.inl (Or.inr ⟨slot, h, rfl⟩)
  all_goals simp at h

end Form

namespace Store

def form (st : Store) : Node → Form
  | .intrinsic kind => .intrinsic kind
  | .literal value => .literal value
  | .union members => .union (st.list members)
  | .intersection members => .intersection (st.list members)
  | .object shape => .object (st.shape shape)
  | .array element => .array element
  | .tuple elements => .tuple (st.slots elements)
  | .function signature => .function (st.signature signature)
  | .constructor signature => .constructor (st.signature signature)
  | .wrapper kind args => .wrapper kind (st.list args)
  | .infer name => .infer name
  | .param name => .param name

def form? (st : Store) (t : TypeId) : Option Form := (st.lookup t).map st.form

theorem form_mentions (st : Store) (node : Node) : (st.form node).mentions = st.children node := by
  cases node <;> rfl

/-- What a type mentions can be read off its form. -/
theorem mentions_eq (st : Store) (t : TypeId) :
    st.mentions t = ((st.form? t).map Form.mentions).getD [] := by
  unfold mentions form?
  cases st.lookup t with
  | none => rfl
  | some node => exact (st.form_mentions node).symm

theorem mentions_of_form {st : Store} {t : TypeId} {f : Form} (h : st.form? t = some f) :
    st.mentions t = f.mentions := by
  rw [mentions_eq, h]
  rfl

theorem lookup_of_form {st : Store} {t : TypeId} {f : Form} (h : st.form? t = some f) :
    ∃ node, st.lookup t = some node ∧ st.form node = f :=
  Option.map_eq_some_iff.mp h

theorem form_of_lookup {st : Store} {t : TypeId} {node : Node} (h : st.lookup t = some node) :
    st.form? t = some (st.form node) := by
  simp [form?, h]

theorem form?_eq_none {st : Store} {t : TypeId} : st.form? t = none ↔ st.lookup t = none := by
  simp [form?]

def Reaches (st : Store) : TypeId → TypeId → Prop :=
  Relation.ReflTransGen fun t u => u ∈ st.mentions t

def InferFree (st : Store) (t : TypeId) : Prop :=
  ∀ u, st.Reaches t u → ∀ name, st.form? u ≠ some (.infer name)

def RestFree (st : Store) (t : TypeId) : Prop :=
  ∀ u, st.Reaches t u → ∀ f, st.form? u = some f → ∀ slot ∈ f.slots, slot.rest = false

def Settled (st : Store) (t : TypeId) : Prop :=
  ∀ u, st.Reaches t u → st.cells[u]? ≠ some (.reserved none)

theorem Reaches.head {st : Store} {t c u : TypeId} (h : c ∈ st.mentions t) (hu : st.Reaches c u) :
    st.Reaches t u :=
  Relation.ReflTransGen.head h hu

theorem InferFree.child {st : Store} {t c : TypeId} (h : st.InferFree t)
    (hc : c ∈ st.mentions t) : st.InferFree c :=
  fun u hu => h u (.head hc hu)

theorem RestFree.child {st : Store} {t c : TypeId} (h : st.RestFree t)
    (hc : c ∈ st.mentions t) : st.RestFree c :=
  fun u hu => h u (.head hc hu)

/-- A set that is closed under mentioning holds everything that can be reached from it. -/
theorem Reaches.inside {st : Store} {X : TypeId → Prop}
    (closed : ∀ t, X t → ∀ c ∈ st.mentions t, X c) {t u : TypeId} (h : st.Reaches t u) (ht : X t) :
    X u := by
  induction h with
  | refl => exact ht
  | tail _ hc ih => exact closed _ ih _ hc

/-- None of some types that mention each other only is an empty placeholder. -/
theorem settled_of_closed {st : Store} (ts : List TypeId)
    (closed : ∀ t ∈ ts, ∀ c ∈ st.mentions t, c ∈ ts)
    (full : ∀ t ∈ ts, st.cells[t]? ≠ some (.reserved none)) {t : TypeId} (ht : t ∈ ts) :
    st.Settled t :=
  fun u hu => full u (hu.inside closed ht)

end Store

end TypeCalculus
