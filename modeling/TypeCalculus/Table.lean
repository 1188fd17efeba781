import TypeCalculus.Dict

namespace TypeCalculus

/-- Values by the numbers that were handed out for them, and the number of each value. -/
structure Table (α : Type) where
  items : List α := []
  index : Dict α Nat := {}
deriving DecidableEq, Repr

namespace Table

variable {α : Type}

def get? (t : Table α) (place : Nat) : Option α := t.items[place]?

variable [DecidableEq α]

def add (t : Table α) (value : α) : Table α :=
  ⟨t.items ++ [value], t.index.insert value t.items.length⟩

def intern (t : Table α) (value : α) : Nat × Table α :=
  match t.index.get? value with
  | some place => (place, t)
  | none => (t.items.length, t.add value)

/-- The index knows each value by the place where it stands, and knows no others. -/
def Indexed (t : Table α) : Prop :=
  ∀ value place, t.index.get? value = some place ↔ t.get? place = some value

theorem indexed_empty : Indexed ({} : Table α) := by
  intro value place
  simp [get?, Dict.get?, Dict.find]

theorem get?_add (t : Table α) (value : α) (place : Nat) :
    (t.add value).get? place = if place = t.items.length then some value else t.get? place := by
  unfold add get?
  rcases Nat.lt_trichotomy place t.items.length with hlt | rfl | hgt
  · simp [List.getElem?_append_left hlt, Nat.ne_of_lt hlt]
  · simp
  · rw [if_neg (Nat.ne_of_gt hgt), List.getElem?_eq_none (Nat.le_of_lt hgt)]
    exact List.getElem?_eq_none (by simpa using Nat.succ_le_of_lt hgt)

/-- A new value leaves the index as right or wrong as it was. -/
theorem indexed_add {t : Table α} {value : α} (hnew : t.index.get? value = none) :
    (t.add value).Indexed ↔ t.Indexed := by
  apply forall₂_congr
  intro other place
  have hindex : (t.add value).index.get? other =
      if other = value then some t.items.length else t.index.get? other := Dict.get?_insert ..
  have hend : t.get? t.items.length = none := List.getElem?_eq_none (Nat.le_refl _)
  rw [hindex, get?_add]
  by_cases hother : other = value
  · by_cases hplace : place = t.items.length
    · simp [hother, hplace, hnew, hend]
    · simp [hother, hplace, Ne.symm hplace, hnew]
  · by_cases hplace : place = t.items.length
    · simp [hother, Ne.symm hother, hplace, hend]
    · simp [hother, hplace]

theorem indexed_intern {t : Table α} (value : α) : (t.intern value).2.Indexed ↔ t.Indexed := by
  unfold intern
  split
  · exact Iff.rfl
  · rename_i hnew
    exact indexed_add hnew

theorem index_intern (t : Table α) (value : α) :
    (t.intern value).2.index.get? value = some (t.intern value).1 := by
  unfold intern
  split
  · assumption
  · simp [add, Dict.get?_insert]

namespace Indexed

variable {t : Table α} (h : t.Indexed)

include h

/-- A value stands in one place. -/
theorem place_inj {value : α} {i j : Nat} (hi : t.get? i = some value)
    (hj : t.get? j = some value) :
    i = j :=
  Option.some.inj (((h value i).mpr hi).symm.trans ((h value j).mpr hj))

/-- The number handed out reads back as the value it was given for. -/
theorem get?_intern (value : α) : (t.intern value).2.get? (t.intern value).1 = some value :=
  ((indexed_intern value).mpr h value _).mp (index_intern t value)

theorem intern_of_get? {value : α} {place : Nat} (hv : t.get? place = some value) :
    t.intern value = (place, t) := by
  rw [Table.intern, (h value place).mpr hv]

end Indexed

end Table

end TypeCalculus
