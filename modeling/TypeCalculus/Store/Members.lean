import TypeCalculus.Store.Basic

namespace TypeCalculus

/-- Puts an identifier into an ascending list that may already hold it. -/
def insertAscending (t : TypeId) : List TypeId → List TypeId
  | [] => [t]
  | u :: rest =>
    if t < u then t :: u :: rest
    else if t = u then u :: rest
    else u :: insertAscending t rest

/-- The distinct identifiers in ascending order. -/
def ascending (ts : List TypeId) : List TypeId := ts.foldr insertAscending []

theorem mem_insertAscending {t u : TypeId} {ts : List TypeId} :
    u ∈ insertAscending t ts ↔ u = t ∨ u ∈ ts := by
  induction ts with
  | nil => simp [insertAscending]
  | cons v rest ih =>
    simp only [insertAscending]
    split
    · simp
    · split
      · rename_i same
        simp [same]
      · simp only [List.mem_cons, ih]
        constructor
        · rintro (h | h | h) <;> simp [h]
        · rintro (h | h | h) <;> simp [h]

theorem mem_ascending {u : TypeId} {ts : List TypeId} : u ∈ ascending ts ↔ u ∈ ts := by
  induction ts with
  | nil => simp [ascending]
  | cons t rest ih =>
    show u ∈ insertAscending t (ascending rest) ↔ _
    rw [mem_insertAscending, ih, List.mem_cons]

theorem pairwise_insertAscending {t : TypeId} {ts : List TypeId} (h : ts.Pairwise (· < ·)) :
    (insertAscending t ts).Pairwise (· < ·) := by
  induction ts with
  | nil => simp [insertAscending]
  | cons u rest ih =>
    obtain ⟨above, sorted⟩ := List.pairwise_cons.mp h
    simp only [insertAscending]
    split
    · rename_i less
      refine List.pairwise_cons.mpr ⟨?_, h⟩
      intro v hv
      rcases List.mem_cons.mp hv with rfl | hv
      · exact less
      · exact Nat.lt_trans less (above v hv)
    · rename_i notLess
      split
      · exact h
      · rename_i different
        refine List.pairwise_cons.mpr ⟨?_, ih sorted⟩
        intro v hv
        rcases mem_insertAscending.mp hv with rfl | hv
        · exact Nat.lt_of_le_of_ne (Nat.le_of_not_lt notLess) (Ne.symm different)
        · exact above v hv

/-- The list is strictly ascending, so no identifier occurs twice. -/
theorem pairwise_ascending (ts : List TypeId) : (ascending ts).Pairwise (· < ·) := by
  induction ts with
  | nil => exact .nil
  | cons t rest ih => exact pairwise_insertAscending ih

namespace Store

/-- Drops the literals whose primitive is a member too. -/
def absorbLiterals (st : Store) (members : List TypeId) : List TypeId :=
  members.filter fun t =>
    match st.lookup t with
    | some (.literal value) => value.primitive ∉ members
    | _ => true

def mkUnion (types : List TypeId) : StoreM TypeId := do
  let st ← get
  let flat := ascending (types.flatMap st.unionMembers)
  if TypeId.any ∈ flat then return .any
  if TypeId.unknown ∈ flat then return .unknown
  match st.absorbLiterals (flat.filter (· ≠ .never)) with
  | [] => return .never
  | [only] => return only
  | members => intern (.union (← internList members))

/-- The primitive type that a type lies in, if it lies in one. -/
def primitive? (st : Store) (t : TypeId) : Option TypeId :=
  if t ∈ [TypeId.string, .number, .boolean, .bigint, .symbol, .null, .undefined] then some t
  else match st.lookup t with
    | some (.literal value) => some value.primitive
    | _ => none

/-- No value lies in two literals, in two primitive types, or in a primitive and an object type. -/
def isDisjoint (st : Store) (members : List TypeId) : Bool :=
  let primitives := members.filterMap st.primitive?
  1 < (members.filter st.isLiteral).length
    || primitives.any (fun p => primitives.any (· ≠ p))
    || (!primitives.isEmpty && members.any st.isObjectLike)

def mkIntersection (types : List TypeId) : StoreM TypeId := do
  let st ← get
  let flat := ascending (types.flatMap st.intersectionMembers)
  if TypeId.never ∈ flat then return .never
  if TypeId.any ∈ flat then return .any
  match flat.filter (· ≠ .unknown) with
  | [] => return .unknown
  | [only] => return only
  | members =>
    if st.isDisjoint members then return .never
    else intern (.intersection (← internList members))

/-- Applies a function to each member of a union and unites the answers. -/
def distribute {m : Type → Type} [Monad m] [MonadLiftT StoreM m] (subject : TypeId)
    (f : TypeId → m TypeId) : m TypeId := do
  let st ← liftM (get : StoreM Store)
  match st.unionMembers subject with
  | [] => return .never
  | [only] => f only
  | members =>
    let answers ← members.mapM f
    liftM (Store.mkUnion answers)

end Store

end TypeCalculus
