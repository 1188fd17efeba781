namespace TypeCalculus

structure Dict (κ ν : Type) where
  entries : List (κ × ν) := []
deriving DecidableEq, Repr

namespace Dict

variable {κ ν : Type} [DecidableEq κ]

def empty : Dict κ ν := {}

/-- Replaces the value of a key in place, or adds the key at the end. -/
def put (key : κ) (value : ν) : List (κ × ν) → List (κ × ν)
  | [] => [(key, value)]
  | (old, held) :: rest =>
    if key = old then (key, value) :: rest else (old, held) :: put key value rest

def find (probe : κ) : List (κ × ν) → Option ν
  | [] => none
  | (key, value) :: rest => if probe = key then some value else find probe rest

def insert (d : Dict κ ν) (key : κ) (value : ν) : Dict κ ν := ⟨put key value d.entries⟩

def get? (d : Dict κ ν) (key : κ) : Option ν := find key d.entries

def contains (d : Dict κ ν) (key : κ) : Bool := (d.get? key).isSome

def keys (d : Dict κ ν) : List κ := d.entries.map Prod.fst

def size (d : Dict κ ν) : Nat := d.entries.length

theorem find_put (key probe : κ) (value : ν) (entries : List (κ × ν)) :
    find probe (put key value entries) =
      if probe = key then some value else find probe entries := by
  induction entries with
  | nil => simp [put, find]
  | cons entry rest ih =>
    obtain ⟨old, held⟩ := entry
    by_cases hk : key = old
    · subst hk
      by_cases h : probe = key <;> simp [put, find, h]
    · by_cases h : probe = old
      · have hp : ¬ old = key := fun e => hk e.symm
        simp [put, find, hk, h, hp]
      · simp [put, find, hk, h, ih]

theorem get?_insert (d : Dict κ ν) (key probe : κ) (value : ν) :
    (d.insert key value).get? probe = if probe = key then some value else d.get? probe :=
  find_put key probe value d.entries

/-- A new key joins the end; an old one keeps its place. -/
theorem keys_insert (d : Dict κ ν) (key : κ) (value : ν) :
    (d.insert key value).keys = if key ∈ d.keys then d.keys else d.keys ++ [key] := by
  obtain ⟨entries⟩ := d
  simp only [insert, keys]
  induction entries with
  | nil => simp [put]
  | cons entry rest ih =>
    obtain ⟨old, held⟩ := entry
    by_cases hk : key = old
    · simp [put, hk]
    · simp only [put, hk, if_false, List.map_cons, List.mem_cons, false_or, ih]
      by_cases hm : key ∈ rest.map Prod.fst <;> simp only [hm, if_true, if_false, List.cons_append]

end Dict

end TypeCalculus
