import Mathlib.Data.Finset.Card
import Mathlib.Data.List.FinRange
import TypeCalculus.NameTable

namespace TypeCalculus.NameTable

theorem toNat_pack (shard : Fin 16) {place : Nat} (h : place ≤ lastPlace) :
    (pack shard place).toNat = place * 16 + shard := by
  have hlast : place ≤ 0xfffffff := h
  have hsize : UInt32.size = 0x100000000 := rfl
  have hplace : place.toUInt32.toNat = place := UInt32.toNat_ofNat_of_lt' (by omega)
  have hshard : shard.val.toUInt32.toNat = shard.val := UInt32.toNat_ofNat_of_lt' (by omega)
  have hfour : (4 : UInt32).toNat % 32 = 4 := rfl
  rw [pack, UInt32.toNat_or, UInt32.toNat_shiftLeft, hplace, hshard, hfour, Nat.shiftLeft_eq,
    Nat.mod_eq_of_lt (by omega), Nat.mul_comm place, ← Nat.two_pow_add_eq_or_of_lt shard.isLt place]

theorem shardOf_eq (atom : Atom) : (shardOf atom).val = atom.toNat % 16 := by
  have hmask : (atom &&& 15).toNat = atom.toNat % 16 := by
    rw [UInt32.toNat_and]
    exact Nat.and_two_pow_sub_one_eq_mod atom.toNat 4
  rw [shardOf, hmask]
  exact Nat.mod_mod _ _

theorem placeOf_eq (atom : Atom) : placeOf atom = atom.toNat / 16 := by
  rw [placeOf, UInt32.toNat_shiftRight]
  exact Nat.shiftRight_eq_div_pow atom.toNat 4

theorem shardOf_pack (shard : Fin 16) {place : Nat} (h : place ≤ lastPlace) :
    shardOf (pack shard place) = shard := by
  apply Fin.ext
  rw [shardOf_eq, toNat_pack shard h]
  omega

theorem placeOf_pack (shard : Fin 16) {place : Nat} (h : place ≤ lastPlace) :
    placeOf (pack shard place) = place := by
  rw [placeOf_eq, toNat_pack shard h]
  omega

theorem placeOf_le (atom : Atom) : placeOf atom ≤ lastPlace := by
  have hlt := atom.toNat_lt
  rw [placeOf_eq, lastPlace]
  omega

/-- Every word is made of a shard and a place. -/
theorem pack_unpack (atom : Atom) : pack (shardOf atom) (placeOf atom) = atom := by
  apply UInt32.toNat_inj.mp
  rw [toNat_pack _ (placeOf_le atom), shardOf_eq, placeOf_eq]
  omega

variable {hash : String → Fin 16} {table table' : NameTable} {past : List String}

def home (hash : String → Fin 16) (name : String) : Fin 16 :=
  if name = "" then shardOf emptyName else hash name

section Add

variable (table : NameTable) (shard other : Fin 16) (name : String)

theorem names_add : (table.add shard name).names other =
    if other = shard then table.names shard ++ [name] else table.names other := by
  simp only [names, add, Fin.getElem_fin, Vector.getElem_set, Fin.ext_iff, eq_comm]
  split <;> rfl

theorem slots_add : (table.add shard name).slots other =
    if other = shard then (table.slots shard).insert name (pack shard (table.names shard).length)
    else table.slots other := by
  simp only [slots, add, Fin.getElem_fin, Vector.getElem_set, Fin.ext_iff, eq_comm]
  split <;> rfl

end Add

/-- A number reads as the name at its place. -/
theorem resolve_pack {shard : Fin 16} {place : Nat} (h : place ≤ lastPlace) (table : NameTable) :
    table.resolve? (pack shard place) = (table.names shard)[place]? := by
  rw [resolve?, shardOf_pack shard h, placeOf_pack shard h]

def Indexed (table : NameTable) : Prop := ∀ shard name atom,
  (table.slots shard).get? name = some atom ↔ shardOf atom = shard ∧ table.resolve? atom = some name

/-- The two tables of a shard stay in step. -/
theorem Indexed.add (h : table.Indexed) {shard : Fin 16} {name : String}
    (hnew : name ∉ table.names shard) (hroom : (table.names shard).length ≤ lastPlace) :
    (table.add shard name).Indexed := by
  intro other probe atom
  rw [slots_add]
  by_cases hother : other = shard
  · subst hother
    rw [if_pos rfl, Dict.get?_insert]
    constructor
    · intro hget
      split at hget
      · rename_i hprobe
        obtain rfl := Option.some.inj hget
        rw [shardOf_pack _ hroom, resolve_pack hroom, names_add, if_pos rfl, hprobe]
        exact ⟨rfl, List.getElem?_concat_length⟩
      · obtain ⟨hshard, hname⟩ := (h other probe atom).mp hget
        refine ⟨hshard, ?_⟩
        rw [resolve?, hshard] at hname ⊢
        rw [names_add, if_pos rfl, List.getElem?_append_left (List.getElem?_eq_some_iff.mp hname).1,
          hname]
    · rintro ⟨hshard, hname⟩
      rw [resolve?, hshard, names_add, if_pos rfl] at hname
      rcases Nat.lt_or_ge (placeOf atom) (table.names other).length with hlt | hge
      · rw [List.getElem?_append_left hlt] at hname
        have hprobe : probe ≠ name := fun hsame => hnew (hsame ▸ List.mem_of_getElem? hname)
        rw [if_neg hprobe, h other probe atom, resolve?, hshard]
        exact ⟨rfl, hname⟩
      · have hplace : placeOf atom = (table.names other).length := by
          have hlast := (List.getElem?_eq_some_iff.mp hname).1
          rw [List.length_append, List.length_singleton] at hlast
          exact Nat.le_antisymm (Nat.le_of_lt_succ hlast) hge
        rw [hplace, List.getElem?_concat_length] at hname
        rw [if_pos (Option.some.inj hname).symm, ← hplace, ← hshard, pack_unpack]
  · rw [if_neg hother, h other probe atom]
    refine and_congr_right fun hshard => ?_
    rw [resolve?, resolve?, hshard, names_add, if_neg hother]

/-- The table has the empty name and those that were interned, each once and where it belongs. -/
structure Keeps (hash : String → Fin 16) (table : NameTable) (past : List String) : Prop where
  indexed : table.Indexed
  mem {shard : Fin 16} {name : String} :
    name ∈ table.names shard ↔ name ∈ "" :: past ∧ home hash name = shard
  room (shard : Fin 16) : (table.names shard).length ≤ lastPlace + 1
  first : table.resolve? emptyName = some ""

theorem indexed_blank : Indexed ⟨Vector.replicate 16 {}⟩ := by
  intro shard name atom
  simp [slots, resolve?, names, Dict.get?, Dict.find]

theorem keeps_empty (hash : String → Fin 16) : Keeps hash empty [] := by
  have hnames (shard : Fin 16) :
      empty.names shard = if shard = shardOf emptyName then [""] else [] := by
    rw [empty, names_add]
    simp [names]
  refine ⟨indexed_blank.add (by simp [names]) (by simp [names]), fun {shard name} => ?_,
    fun shard => ?_, by decide⟩
  · rw [hnames, List.mem_singleton]
    constructor
    · intro h
      split at h
      · rename_i hzero
        obtain rfl := List.mem_singleton.mp h
        exact ⟨rfl, hzero ▸ if_pos rfl⟩
      · cases h
    · rintro ⟨rfl, rfl⟩
      exact List.mem_singleton.mpr rfl
  · rw [hnames]
    split <;> simp [lastPlace]

def Grows (table table' : NameTable) : Prop := ∀ shard, table.names shard <+: table'.names shard

theorem Grows.refl (table : NameTable) : table.Grows table := fun _ => List.prefix_rfl

theorem Grows.trans {table'' : NameTable} (h : table.Grows table') (h' : table'.Grows table'') :
    table.Grows table'' := fun shard => (h shard).trans (h' shard)

theorem grows_add (table : NameTable) (shard : Fin 16) (name : String) :
    table.Grows (table.add shard name) := by
  intro other
  rw [names_add]
  split
  · rename_i hsame
    exact hsame ▸ List.prefix_append _ _
  · exact List.prefix_rfl

theorem Grows.resolve (h : table.Grows table') {atom : Atom} {name : String}
    (hname : table.resolve? atom = some name) : table'.resolve? atom = some name := by
  obtain ⟨rest, hrest⟩ := h (shardOf atom)
  unfold resolve? at hname ⊢
  rw [← hrest, List.getElem?_append_left (List.getElem?_eq_some_iff.mp hname).1, hname]

namespace Keeps

variable (h : Keeps hash table past)

include h

/-- A number reads as a name that was interned, in the shard where it belongs. -/
theorem known {atom : Atom} {name : String} (hname : table.resolve? atom = some name) :
    name ∈ "" :: past ∧ home hash name = shardOf atom :=
  h.mem.mp (List.mem_of_getElem? hname)

/-- No two numbers read as one name. -/
theorem unique {x y : Atom} {name : String} (hx : table.resolve? x = some name)
    (hy : table.resolve? y = some name) : x = y := by
  have hshard : shardOf x = shardOf y := (h.known hx).2.symm.trans (h.known hy).2
  have hslot := (h.indexed (shardOf x) name x).mpr ⟨rfl, hx⟩
  have hslot' := (h.indexed (shardOf x) name y).mpr ⟨hshard.symm, hy⟩
  exact Option.some.inj (hslot.symm.trans hslot')

/-- What a shard holds at a place has the number of that place. -/
theorem resolve_place {shard : Fin 16} {place : Nat} (hlt : place < (table.names shard).length) :
    place ≤ lastPlace ∧ table.resolve? (pack shard place) = (table.names shard)[place]? := by
  have hle := Nat.le_of_lt_succ (Nat.lt_of_lt_of_le hlt (h.room shard))
  exact ⟨hle, resolve_pack hle table⟩

theorem nodup (shard : Fin 16) : (table.names shard).Nodup := by
  refine List.nodup_iff_injective_get.mpr fun i j hij => Fin.ext ?_
  obtain ⟨hi, hread⟩ := h.resolve_place i.isLt
  obtain ⟨hj, hread'⟩ := h.resolve_place j.isLt
  rw [List.getElem?_eq_getElem i.isLt] at hread
  rw [List.getElem?_eq_getElem j.isLt] at hread'
  have hsame := h.unique hread (hread'.trans (congrArg some hij.symm))
  rw [← placeOf_pack shard hi, hsame, placeOf_pack shard hj]

/-- A name that the shard does not find it does not hold. -/
theorem not_mem_of_slot {shard : Fin 16} {name : String}
    (hnone : (table.slots shard).get? name = none) :
    name ∉ table.names shard := by
  intro hmem
  obtain ⟨place, hlt, hat⟩ := List.getElem_of_mem hmem
  obtain ⟨hle, hread⟩ := h.resolve_place hlt
  rw [List.getElem?_eq_getElem hlt, hat] at hread
  cases hnone.symm.trans ((h.indexed shard name _).mpr ⟨shardOf_pack shard hle, hread⟩)

/-- A name is found where it belongs, or it joins the names there, or there is no place left for
it. -/
theorem intern_cases (name : String) :
    (∃ atom, table.resolve? atom = some name ∧ table.intern hash name = .ok (atom, table)) ∨
      name ∉ table.names (home hash name) ∧ table.intern hash name =
        let shard := home hash name
        if (table.names shard).length ≤ lastPlace then
          .ok (pack shard (table.names shard).length, table.add shard name)
        else .error (.full shard) := by
  by_cases hempty : name = ""
  · exact .inl ⟨emptyName, hempty ▸ h.first, if_pos hempty⟩
  · have hhome : home hash name = hash name := if_neg hempty
    rw [hhome]
    unfold intern
    rw [if_neg hempty]
    dsimp only
    split
    · rename_i atom hatom
      exact .inl ⟨atom, ((h.indexed _ name atom).mp hatom).2, rfl⟩
    · rename_i hnone
      exact .inr ⟨h.not_mem_of_slot hnone, rfl⟩

/-- A name that is held already changes nothing. -/
theorem again {name : String} (hname : name ∈ "" :: past) : Keeps hash table (past ++ [name]) := by
  have hsame (other : String) : other ∈ "" :: (past ++ [name]) ↔ other ∈ "" :: past := by
    rw [← List.cons_append, List.mem_append, List.mem_singleton]
    exact or_iff_left_of_imp fun h => h ▸ hname
  exact ⟨h.indexed, h.mem.trans (and_congr_left fun _ => (hsame _).symm), h.room, h.first⟩

theorem add {name : String} (hnew : name ∉ table.names (home hash name))
    (hroom : (table.names (home hash name)).length ≤ lastPlace) :
    Keeps hash (table.add (home hash name) name) (past ++ [name]) := by
  refine ⟨h.indexed.add hnew hroom, fun {shard other} => ?_, fun shard => ?_,
    (grows_add _ _ _).resolve h.first⟩
  · rw [names_add, ← List.cons_append, List.mem_append, List.mem_singleton]
    split
    · rename_i hshard
      rw [List.mem_append, List.mem_singleton, h.mem, hshard]
      constructor
      · rintro (⟨hpast, hhome⟩ | rfl)
        · exact ⟨.inl hpast, hhome⟩
        · exact ⟨.inr rfl, rfl⟩
      · rintro ⟨hpast | rfl, hhome⟩
        · exact .inl ⟨hpast, hhome⟩
        · exact .inr rfl
    · rename_i hshard
      rw [h.mem]
      constructor
      · rintro ⟨hpast, hhome⟩
        exact ⟨.inl hpast, hhome⟩
      · rintro ⟨hpast | rfl, hhome⟩
        · exact ⟨hpast, hhome⟩
        · exact absurd hhome.symm hshard
  · rw [names_add]
    split
    · rw [List.length_append]
      exact Nat.succ_le_succ hroom
    · exact h.room shard

/-- One name is interned: the number that it gets reads as the name. -/
theorem intern {name : String} {atom : Atom} (hok : table.intern hash name = .ok (atom, table')) :
    Keeps hash table' (past ++ [name]) ∧ table.Grows table' ∧ table'.resolve? atom = some name := by
  rcases h.intern_cases name with ⟨found, hfound, hresult⟩ | ⟨hnew, hresult⟩
  · cases hresult.symm.trans hok
    exact ⟨h.again (h.known hfound).1, .refl table, hfound⟩
  · dsimp only at hresult
    split at hresult
    · rename_i hroom
      cases hresult.symm.trans hok
      refine ⟨h.add hnew hroom, grows_add _ _ _, ?_⟩
      rw [resolve_pack hroom, names_add, if_pos rfl]
      simp
    · cases hresult.symm.trans hok

end Keeps

def due (hash : String → Fin 16) (names : List String) (shard : Fin 16) : Finset String :=
  ("" :: names).toFinset.filter (home hash · = shard)

theorem mem_due {names : List String} {shard : Fin 16} {name : String} :
    name ∈ due hash names shard ↔ name ∈ "" :: names ∧ home hash name = shard := by
  rw [due, Finset.mem_filter, List.mem_toFinset]

/-- No shard has more names to hold than it has places. -/
def Room (hash : String → Fin 16) (names : List String) : Prop :=
  ∀ shard, (due hash names shard).card ≤ lastPlace + 1

theorem due_subset {names names' : List String} (h : names ⊆ names') (shard : Fin 16) :
    due hash names shard ⊆ due hash names' shard := by
  intro name hname
  obtain ⟨hmem, hhome⟩ := mem_due.mp hname
  exact mem_due.mpr ⟨List.cons_subset_cons "" h hmem, hhome⟩

theorem Room.of_subset {names names' : List String} (h : Room hash names') (hsub : names ⊆ names') :
    Room hash names :=
  fun shard => Nat.le_trans (Finset.card_le_card (due_subset hsub shard)) (h shard)

/-- A shard holds the names that it has to hold. -/
theorem Keeps.toFinset_names (h : Keeps hash table past) (shard : Fin 16) :
    (table.names shard).toFinset = due hash past shard := by
  ext name
  rw [List.mem_toFinset, h.mem, mem_due]

/-- As long as there is room, a name gets its number. -/
theorem Keeps.intern_returns (h : Keeps hash table past) {name : String}
    (hroom : Room hash (past ++ [name])) :
    ∃ atom table', table.intern hash name = .ok (atom, table') := by
  rcases h.intern_cases name with ⟨atom, _, hresult⟩ | ⟨hnew, hresult⟩
  · exact ⟨atom, table, hresult⟩
  · have hplace : (table.names (home hash name)).length ≤ lastPlace := by
      -- the name would come on top of those that its shard holds
      have hadded : insert name (table.names (home hash name)).toFinset ⊆
          due hash (past ++ [name]) (home hash name) := by
        rw [h.toFinset_names, Finset.insert_subset_iff]
        exact ⟨mem_due.mpr ⟨by simp, rfl⟩, due_subset (List.subset_append_left _ _) _⟩
      have hcard := Nat.le_trans (Finset.card_le_card hadded) (hroom (home hash name))
      rw [Finset.card_insert_of_notMem (mt List.mem_toFinset.mp hnew),
        List.toFinset_card_of_nodup (h.nodup _)] at hcard
      exact Nat.le_of_succ_le_succ hcard
    exact ⟨_, _, hresult.trans (if_pos hplace)⟩

/-- What a table holds it had room for. -/
theorem Keeps.has_room (h : Keeps hash table past) : Room hash past := by
  intro shard
  rw [← h.toFinset_names, List.toFinset_card_of_nodup (h.nodup shard)]
  exact h.room shard

section Runs

variable {names : List String} {atoms : List Atom}

/-- A run returns if its first call does and so do the others after it. -/
theorem internAll_cons {name : String} :
    table.internAll hash (name :: names) = .ok (atoms, table') ↔
      ∃ atom middle others, table.intern hash name = .ok (atom, middle) ∧
        middle.internAll hash names = .ok (others, table') ∧ atoms = atom :: others := by
  rw [internAll]
  constructor
  · intro h
    cases hone : table.intern hash name with
    | error fault =>
      rw [hone] at h
      cases h
    | ok first =>
      cases hrest : first.2.internAll hash names with
      | error fault =>
        simp only [hone, bind, Except.bind, hrest] at h
        cases h
      | ok others =>
        simp only [hone, bind, Except.bind, hrest] at h
        cases h
        exact ⟨first.1, first.2, others.1, rfl, hrest, rfl⟩
  · rintro ⟨atom, middle, others, hone, hrest, rfl⟩
    simp only [hone, bind, Except.bind, hrest]
    rfl

theorem internAll_append {later : List String} {atoms' : List Atom} {last : NameTable}
    (h : table.internAll hash names = .ok (atoms, table'))
    (h' : table'.internAll hash later = .ok (atoms', last)) :
    table.internAll hash (names ++ later) = .ok (atoms ++ atoms', last) := by
  induction names generalizing table atoms with
  | nil =>
    cases h
    exact h'
  | cons name rest ih =>
    obtain ⟨atom, middle, others, hone, hrest, rfl⟩ := internAll_cons.mp h
    exact internAll_cons.mpr ⟨atom, middle, others ++ atoms', hone, ih hrest, rfl⟩

/-- Every name gets a number that reads as the name, and goes on doing so. -/
theorem Keeps.internAll (h : Keeps hash table past)
    (hrun : table.internAll hash names = .ok (atoms, table')) :
    Keeps hash table' (past ++ names) ∧ table.Grows table' ∧
    atoms.map table'.resolve? = names.map some := by
  induction names generalizing table past atoms with
  | nil =>
    cases hrun
    exact ⟨(List.append_nil past).symm ▸ h, .refl _, rfl⟩
  | cons name rest ih =>
    obtain ⟨atom, middle, others, hone, hrest, rfl⟩ := internAll_cons.mp hrun
    obtain ⟨hkeeps, hgrows, hname⟩ := h.intern hone
    obtain ⟨hkeeps', hgrows', hnames⟩ := ih hkeeps hrest
    rw [List.append_cons past name rest]
    refine ⟨hkeeps', hgrows.trans hgrows', ?_⟩
    rw [List.map_cons, List.map_cons, hnames, hgrows'.resolve hname]

theorem Keeps.internAll_returns (h : Keeps hash table past) (hroom : Room hash (past ++ names)) :
    ∃ atoms table', table.internAll hash names = .ok (atoms, table') := by
  induction names generalizing table past with
  | nil => exact ⟨[], table, rfl⟩
  | cons name rest ih =>
    rw [List.append_cons past name rest] at hroom
    obtain ⟨atom, middle, hone⟩ := h.intern_returns (hroom.of_subset (List.subset_append_left _ _))
    obtain ⟨others, last, hrest⟩ := ih (h.intern hone).1 hroom
    exact ⟨atom :: others, last, internAll_cons.mpr ⟨atom, middle, others, hone, hrest, rfl⟩⟩

/-- Names are refused only for want of places. -/
theorem internAll_returns_iff :
    (∃ atoms table, empty.internAll hash names = .ok (atoms, table)) ↔ Room hash names := by
  constructor
  · rintro ⟨atoms, table, hrun⟩
    exact ((keeps_empty hash).internAll hrun).1.has_room
  · exact fun hroom => (keeps_empty hash).internAll_returns hroom

end Runs

section Numbers

variable {names : List String} {atoms : List Atom} (h : atoms.map table.resolve? = names.map some)

include h

theorem resolve_of_call {name : String} {atom : Atom} (hcall : (name, atom) ∈ names.zip atoms) :
    table.resolve? atom = some name := by
  obtain ⟨i, hi⟩ := List.mem_iff_getElem?.mp hcall
  obtain ⟨hname, hatom⟩ := List.getElem?_zip_eq_some.mp hi
  have hread := congrArg (·[i]?) h
  simp only [List.getElem?_map, hname, hatom, Option.map_some, Option.some.injEq] at hread
  exact hread

/-- The numbers read back as the names, in order. -/
theorem map_resolve : atoms.map table.resolve = names := by
  have hresolve : table.resolve = (·.getD "") ∘ table.resolve? := rfl
  rw [hresolve, ← List.map_map, h, List.map_map]
  exact List.map_id' names

/-- A number that was not handed out has no name. -/
theorem Keeps.resolve_none (hkeeps : Keeps hash table names) {atom : Atom}
    (hatom : atom ∉ emptyName :: atoms) :
    table.resolve? atom = none := by
  rw [List.mem_cons, not_or] at hatom
  rw [Option.eq_none_iff_forall_ne_some]
  intro name hname
  rcases List.mem_cons.mp (hkeeps.known hname).1 with rfl | hpast
  · exact hatom.1 (hkeeps.unique hname hkeeps.first)
  · have hread : some name ∈ atoms.map table.resolve? := h ▸ List.mem_map_of_mem hpast
    obtain ⟨other, hother, hsame⟩ := List.mem_map.mp hread
    exact hatom.2 (hkeeps.unique hname hsame ▸ hother)

end Numbers

theorem toList_shards (table : NameTable) :
    table.shards.toList.map Shard.names = (List.finRange 16).map table.names := by
  apply List.ext_getElem
  · simp
  · intro i _ _
    simp [names]

/-- The shards hold the names between them, each once. -/
theorem Keeps.size_eq (h : Keeps hash table past) :
    table.size = 1 + (past.toFinset.erase "").card := by
  have hflat : table.shards.toList.flatMap Shard.names =
      (List.finRange 16).flatMap table.names := by
    rw [List.flatMap_def, toList_shards, List.flatMap_def]
  have hnodup : ((List.finRange 16).flatMap table.names).Nodup := by
    refine List.nodup_flatMap.mpr ⟨fun shard _ => h.nodup shard, ?_⟩
    refine (List.nodup_finRange 16).pairwise_of_forall_ne
      fun shard _ other _ hne name hname hname' => ?_
    exact hne ((h.mem.mp hname).2.symm.trans (h.mem.mp hname').2)
  have hall : ((List.finRange 16).flatMap table.names).toFinset = insert "" past.toFinset := by
    ext name
    simp only [List.mem_toFinset, List.mem_flatMap, List.mem_finRange, true_and, h.mem,
      Finset.mem_insert, List.mem_cons, exists_and_left, exists_eq', and_true]
  rw [NameTable.size, hflat, ← List.toFinset_card_of_nodup hnodup, hall,
    ← Finset.card_erase_add_one (Finset.mem_insert_self "" _),
    Finset.erase_insert_eq_erase, Nat.add_comm]

/-- However a hash spreads the names, as long as no shard has to hold more than it has places for,
names are numbered one to one: each call returns; at every moment all numbers handed out so far read
back as their names; two calls give one number just if they were given one name; zero stands for the
empty name, and for no other; a number that was not handed out stands for none; and the table counts
the empty name and the others that were interned, each once. -/
theorem names_numbered (hash : String → Fin 16) {names : List String} (hroom : Room hash names) :
    ∃ atoms table, empty.internAll hash names = .ok (atoms, table) ∧
      (∀ earlier later, names = earlier ++ later → ∃ atoms' table',
        empty.internAll hash earlier = .ok (atoms', table') ∧ atoms' <+: atoms ∧
          atoms'.map table'.resolve? = earlier.map some ∧ atoms'.map table'.resolve = earlier) ∧
      (∀ call ∈ names.zip atoms, ∀ call' ∈ names.zip atoms, call.2 = call'.2 ↔ call.1 = call'.1) ∧
      (∀ call ∈ names.zip atoms, call.2 = emptyName ↔ call.1 = "") ∧
      (∀ atom, atom ∉ emptyName :: atoms → table.resolve? atom = none) ∧
      table.size = 1 + (names.toFinset.erase "").card := by
  obtain ⟨atoms, table, hrun⟩ := internAll_returns_iff.mpr hroom
  obtain ⟨hkeeps, _, hread⟩ := (keeps_empty hash).internAll hrun
  rw [List.nil_append] at hkeeps
  refine ⟨atoms, table, hrun, fun earlier later hsplit => ?_, fun call hcall call' hcall' => ?_,
    fun call hcall => ?_, fun atom => hkeeps.resolve_none hread, hkeeps.size_eq⟩
  · subst hsplit
    obtain ⟨atoms', table', hrun'⟩ :=
      internAll_returns_iff.mpr (hroom.of_subset (List.subset_append_left earlier later))
    obtain ⟨hkeeps', _, hread'⟩ := (keeps_empty hash).internAll hrun'
    obtain ⟨rest, last, hrest⟩ := hkeeps'.internAll_returns hroom
    cases hrun.symm.trans (internAll_append hrun' hrest)
    exact ⟨atoms', table', hrun', List.prefix_append _ _, hread', map_resolve hread'⟩
  · have hname := resolve_of_call hread hcall
    have hname' := resolve_of_call hread hcall'
    constructor
    · intro hsame
      rw [hsame] at hname
      exact Option.some.inj (hname.symm.trans hname')
    · intro hsame
      rw [hsame] at hname
      exact hkeeps.unique hname hname'
  · have hname := resolve_of_call hread hcall
    constructor
    · intro hzero
      rw [hzero] at hname
      exact Option.some.inj (hname.symm.trans hkeeps.first)
    · intro hempty
      rw [hempty] at hname
      exact hkeeps.unique hname hkeeps.first

/-- One name comes twice, two share a shard, and one stands behind the empty name. -/
def crowdedNames : List String := ["a", "q", "", "p", "a"]

theorem names_numbered_crowded :
    Room charSum crowdedNames ∧ charSum "a" = charSum "q" ∧ charSum "p" = 0 ∧
      ∃ table, empty.internAll charSum crowdedNames = .ok ([1, 17, 0, 16, 1], table) ∧
        table.resolve? 17 = some "q" ∧ table.resolve? 33 = none ∧ table.resolve? 0xffffffff = none ∧
        table.size = 4 := by
  have hroom : Room charSum crowdedNames := by
    unfold Room
    decide +kernel
  obtain ⟨atoms, table, hrun, hread, _, _, hnone, hsize⟩ := names_numbered charSum hroom
  have hatoms : (empty.internAll charSum crowdedNames).map Prod.fst = .ok [1, 17, 0, 16, 1] := by
    decide +kernel
  rw [hrun] at hatoms
  cases hatoms
  obtain ⟨atoms', table', hrun', _, hread', _⟩ := hread crowdedNames [] rfl
  cases hrun.symm.trans hrun'
  refine ⟨hroom, by decide +kernel, by decide +kernel, table, hrun, ?_, ?_, ?_, ?_⟩
  · exact resolve_of_call hread'
      (by decide : ("q", (17 : Atom)) ∈ crowdedNames.zip [1, 17, 0, 16, 1])
  · exact hnone 33 (by decide)
  · exact hnone _ (by decide)
  · rw [hsize]
    decide +kernel

end TypeCalculus.NameTable
