import Mathlib.Data.List.Induction
import TypeCalculus.Proofs.Containers
import TypeCalculus.Render

namespace TypeCalculus

def delimiters : List Char := [' ', '(', ')', '[', ']', '.']

structure IsName (text : List Char) : Prop where
  nonempty : text ≠ []
  plain {c : Char} : c ∈ text → c ∉ delimiters

theorem isName_iff {text : List Char} :
    IsName text ↔ (!text.isEmpty && text.all fun c => !delimiters.contains c) = true := by
  simp only [Bool.and_eq_true, Bool.not_eq_true', List.isEmpty_eq_false_iff, List.all_eq_true,
    List.contains_eq_mem, decide_eq_false_iff_not]
  exact ⟨fun h => ⟨h.nonempty, fun _ => h.plain⟩, fun h => ⟨h.1, h.2 _⟩⟩

-- The characters of the text are tried, rather than all characters.
instance (text : List Char) : Decidable (IsName text) :=
  decidable_of_iff _ isName_iff.symm

def After (endings : List (List Char)) (text : List Char) : Prop :=
  text = [] ∨ ∃ ending ∈ endings, ending <:+ text

theorem After.weaken {endings : List (List Char)} {text : List Char} (h : After endings text)
    (ending : List Char) : After (ending :: endings) text :=
  h.imp_right fun ⟨last, hlast, hs⟩ => ⟨last, List.mem_cons_of_mem _ hlast, hs⟩

theorem after_append (ending : List Char) (endings : List (List Char)) (text : List Char) :
    After (ending :: endings) (text ++ ending) :=
  .inr ⟨ending, List.mem_cons_self, List.suffix_append _ _⟩

/-- What ends in a separator does not end in what a type stands after. -/
theorem not_after_append {endings : List (List Char)} {separator : List Char} (hne : separator ≠ [])
    (hlength : ∀ ending ∈ endings, ending.length ≤ separator.length)
    (hends : ∀ ending ∈ endings, ¬ ending <:+ separator) (text : List Char) :
    ¬ After endings (text ++ separator) := by
  rintro (hnil | ⟨ending, hending, hs⟩)
  · exact hne (List.append_eq_nil_iff.mp hnil).2
  · exact hends ending hending
      (List.suffix_of_suffix_length_le hs (List.suffix_append text separator)
        (hlength ending hending))

theorem intercalate_concat {separator x : List Char} {xs : List (List Char)} (h : xs ≠ []) :
    separator.intercalate (xs ++ [x]) = separator.intercalate xs ++ separator ++ x := by
  induction xs with
  | nil => exact absurd rfl h
  | cons y ys ih =>
    rcases ys with _ | ⟨z, zs⟩
    · simp [List.intercalate_cons_cons]
    · have hne : z :: zs ≠ [] := by simp
      rw [List.cons_append, List.intercalate_cons_of_ne_nil (by simp), ih hne,
        List.intercalate_cons_of_ne_nil hne]
      simp only [List.append_assoc]

theorem not_mem_intercalate {separator : List Char} {c : Char} {xs : List (List Char)}
    (hs : c ∉ separator) (hxs : ∀ x ∈ xs, c ∉ x) : c ∉ separator.intercalate xs := by
  induction xs with
  | nil => simp
  | cons y ys ih =>
    rcases ys with _ | ⟨z, zs⟩
    · simpa using hxs y
    · rw [List.intercalate_cons_cons, List.mem_append, List.mem_append]
      rintro ((hc | hc) | hc)
      · exact hxs y List.mem_cons_self hc
      · exact hs hc
      · exact ih (fun x hx => hxs x (List.mem_cons_of_mem _ hx)) hc

section Join

variable {α : Type} {f g : α → List Char} {separator : List Char} {endings : List (List Char)}

/-- The last of the items, and what stands before it. -/
theorem exists_last (f : α → List Char) (separator : List Char) {start : List Char}
    (hs : After endings start) (xs : List α) (x : α) :
    ∃ front, start ++ separator.intercalate ((xs ++ [x]).map f) = front ++ f x ∧
      After (separator :: endings) front ∧ (xs = [] ∧ front = start ∨
        xs ≠ [] ∧ front = start ++ separator.intercalate (xs.map f) ++ separator) := by
  by_cases hxs : xs = []
  · subst hxs
    exact ⟨start, by simp, hs.weaken _, .inl ⟨rfl, rfl⟩⟩
  · refine ⟨start ++ separator.intercalate (xs.map f) ++ separator, ?_, after_append _ _ _,
      .inr ⟨hxs, rfl⟩⟩
    rw [List.map_append, List.map_singleton, intercalate_concat (by simpa using hxs)]
    simp only [List.append_assoc]

/-- If the items can be told from what stands before them, so can the whole that they are joined
to. -/
theorem intercalate_cancel (hnot : ∀ text, ¬ After endings (text ++ separator)) {xs ys : List α}
    (hitem : ∀ x ∈ xs, ∀ y ∈ ys, ∀ start start', After (separator :: endings) start →
      After (separator :: endings) start' → start ++ f x = start' ++ g y → x = y ∧ start = start')
    (hxs : xs ≠ []) (hys : ys ≠ []) {start start' : List Char} (hs : After endings start)
    (hs' : After endings start')
    (h : start ++ separator.intercalate (xs.map f) = start' ++ separator.intercalate (ys.map g)) :
    xs = ys ∧ start = start' := by
  induction xs using List.reverseRecOn generalizing ys with
  | nil => exact absurd rfl hxs
  | append_singleton xs x ih =>
    obtain ⟨ys, y, rfl⟩ := ys.eq_nil_or_concat'.resolve_left hys
    obtain ⟨front, hfront, hafter, hcase⟩ := exists_last f separator hs xs x
    obtain ⟨front', hfront', hafter', hcase'⟩ := exists_last g separator hs' ys y
    rw [hfront, hfront'] at h
    obtain ⟨rfl, rfl⟩ := hitem x (by simp) y (by simp) _ _ hafter hafter' h
    rcases hcase with ⟨rfl, rfl⟩ | ⟨hne, hjoin⟩ <;>
      rcases hcase' with ⟨rfl, hstart⟩ | ⟨hne', hjoin'⟩
    · exact ⟨rfl, hstart⟩
    · exact absurd (hjoin' ▸ hs) (hnot _)
    · exact absurd (hstart.symm.trans hjoin ▸ hs') (hnot _)
    · obtain ⟨rfl, rfl⟩ := ih (fun a ha b hb => hitem a (by simp [ha]) b (by simp [hb])) hne hne'
        (List.append_cancel_right (hjoin.symm.trans hjoin'))
      exact ⟨rfl, rfl⟩

end Join

inductive Connective
  | union | intersection

inductive Place
  | alone
  | member (c : Connective)

namespace Connective

def make : Connective → List TypeId → Form
  | .union => .union
  | .intersection => .intersection

def separator : Connective → List Char
  | .union => [' ', '|', ' ']
  | .intersection => [' ', '&', ' ']

def place : Connective → Place
  | .union => .alone
  | .intersection => .member .union

end Connective

def Store.isUnion (st : Store) (t : TypeId) : Bool := (st.form? t).any Form.isUnion

namespace Place

def endings : Place → List (List Char)
  | .alone => [['(']]
  | .member .union => [Connective.union.separator, ['(']]
  | .member .intersection => [Connective.intersection.separator, Connective.union.separator, ['(']]

def Allows (st : Store) (t : TypeId) : Place → Prop
  | .alone => True
  | .member .union => st.isUnion t = false
  | .member .intersection => st.needsParens t = false

instance (st : Store) (t : TypeId) : (place : Place) → Decidable (place.Allows st t)
  | .alone => .isTrue trivial
  | .member .union => inferInstanceAs (Decidable (_ = false))
  | .member .intersection => inferInstanceAs (Decidable (_ = false))

end Place

theorem Connective.endings (c : Connective) :
    (Place.member c).endings = c.separator :: c.place.endings := by
  cases c <;> rfl

/-- Members are not mistaken for what stands before the whole. -/
theorem Connective.not_after (c : Connective) (text : List Char) :
    ¬ After c.place.endings (text ++ c.separator) := by
  cases c <;> exact not_after_append (by decide) (by decide) (by decide) text

theorem Place.ending_closed {place : Place} {ending : List Char} (h : ending ∈ place.endings) :
    ∃ front c, ending = front ++ [c] ∧ c ∈ delimiters := by
  have hending : ending = [' ', '&'] ++ [' '] ∨ ending = [' ', '|'] ++ [' '] ∨
      ending = [] ++ ['('] := by
    rcases place with _ | _ | _ <;> simp_all [endings, Connective.separator]
  rcases hending with rfl | rfl | rfl <;> exact ⟨_, _, rfl, by decide⟩

/-- No part of a name is left in front of a name. -/
theorem After.eq_nil {place : Place} {start name : List Char}
    (h : After place.endings (start ++ name)) (hname : ∀ c ∈ name, c ∉ delimiters) : name = [] := by
  rcases name.eq_nil_or_concat' with rfl | ⟨front, c, rfl⟩
  · rfl
  · exfalso
    rcases h with hnil | ⟨ending, hending, first, hfirst⟩
    · simp at hnil
    · obtain ⟨_, last, rfl, hlast⟩ := Place.ending_closed hending
      obtain rfl : last = c := by
        rw [← List.append_assoc, ← List.append_assoc] at hfirst
        exact List.singleton_inj.mp (List.append_inj' hfirst rfl).2
      exact hname _ (by simp) hlast

/-- Names are read from the end: a name begins where something that is no part of it stands. -/
theorem IsName.cancel {place : Place} {x y start start' : List Char} (hx : IsName x) (hy : IsName y)
    (hs : After place.endings start) (hs' : After place.endings start')
    (h : start ++ x = start' ++ y) :
    x = y ∧ start = start' := by
  rcases List.append_eq_append_iff.mp h with ⟨rest, rfl, rfl⟩ | ⟨rest, rfl, rfl⟩
  · obtain rfl := hs'.eq_nil fun c hc => hx.plain (List.mem_append_left _ hc)
    simp
  · obtain rfl := hs.eq_nil fun c hc => hy.plain (List.mem_append_left _ hc)
    simp

theorem IsName.ne_append {x closing : List Char} (hx : IsName x) {c : Char} (hc : c ∈ delimiters)
    (hclosing : closing.getLast? = some c) (start text : List Char) :
    start ++ x ≠ text ++ closing := by
  intro h
  have hne : closing ≠ [] := by
    rintro rfl
    cases hclosing
  have hlast := congrArg List.getLast? h
  rw [List.getLast?_append_of_ne_nil _ hx.nonempty, List.getLast?_append_of_ne_nil _ hne,
    hclosing] at hlast
  exact hx.plain (List.mem_of_getLast? hlast) hc

namespace Store

/-- The type goes by a name: a parameter by one of these names, an intrinsic by its own, if it is
none of these. -/
inductive GoesBy (names : List String) (st : Store) (t : TypeId) : String → Prop
  | param {name : String} (h : Made (.param name) t st) (hname : name ∈ names) :
      GoesBy names st t name
  | intrinsic {kind : Intrinsic} (h : Made (.intrinsic kind) t st) (hname : kind.name ∉ names) :
      GoesBy names st t kind.name

def parenthesized (parens : Bool) (text : List Char) : List Char :=
  if parens then ['('] ++ text ++ [')'] else text

/-- How a type is written that is made of named types, arrays, unions and intersections and has at
most so many levels. The members of a union are no unions, those of an intersection neither unions
nor intersections. -/
inductive Spells (names : List String) (st : Store) : Nat → TypeId → List Char → Prop
  | name {n : Nat} {t : TypeId} {name : String} (h : GoesBy names st t name) :
      Spells names st (n + 1) t name.toList
  | array {n : Nat} {t e : TypeId} {text : List Char} (h : Made (.array e) t st)
      (he : Spells names st n e text) :
      Spells names st (n + 1) t (parenthesized (st.needsParens e) text ++ ['[', ']'])
  | group {n : Nat} {t : TypeId} {ms : List TypeId} {text : TypeId → List Char} (c : Connective)
      (h : Made (c.make ms) t st) (hms : ∀ m ∈ ms, Spells names st n m (text m))
      (hflat : ∀ m ∈ ms, (Place.member c).Allows st m) :
      Spells names st (n + 1) t (c.separator.intercalate (ms.map text))

variable {names : List String} {st : Store} {n n' : Nat} {t u : TypeId} {x y : List Char}

theorem isUnion_of_form {f : Form} (h : st.form? t = some f) : st.isUnion t = f.isUnion := by
  rw [isUnion, h]
  rfl

theorem needsParens_eq_false {f : Form} (h : st.form? t = some f)
    (hf : (∃ name, f = .param name) ∨ (∃ kind, f = .intrinsic kind) ∨ ∃ e, f = .array e) :
    st.needsParens t = false := by
  obtain ⟨node, hl, hnode⟩ := lookup_of_form h
  unfold needsParens isSignature
  rw [hl]
  rcases hf with ⟨_, rfl⟩ | ⟨_, rfl⟩ | ⟨_, rfl⟩ <;> cases node <;> cases hnode <;> rfl

theorem needsParens_of_group {c : Connective} {ms : List TypeId}
    (h : st.form? t = some (c.make ms)) :
    st.needsParens t = true := by
  obtain ⟨node, hl, hnode⟩ := lookup_of_form h
  unfold needsParens
  rw [hl]
  cases c <;> cases node <;> cases hnode <;> rfl

theorem allows_of_needsParens (h : st.needsParens t = false) (place : Place) :
    place.Allows st t := by
  rcases place with _ | _ | _
  · trivial
  · rw [Place.Allows, isUnion, Option.any_eq_false]
    intro f hf
    cases f with
    | union ms => cases h.symm.trans (needsParens_of_group (c := .union) hf)
    | _ => rfl
  · exact h

namespace GoesBy

variable {name other : String}

theorem needsParens (h : GoesBy names st t name) : st.needsParens t = false := by
  cases h with
  | param h => exact needsParens_eq_false h.form (.inl ⟨_, rfl⟩)
  | intrinsic h => exact needsParens_eq_false h.form (.inr (.inl ⟨_, rfl⟩))

theorem isName (h : GoesBy names st t name) (hnames : ∀ name ∈ names, IsName name.toList) :
    IsName name.toList := by
  cases h with
  | param _ hname => exact hnames _ hname
  | @intrinsic kind => cases kind <;> decide

theorem unique (hst : st.Neat) (h : GoesBy names st t name) (h' : GoesBy names st u other)
    (heq : name = other) : t = u := by
  cases h with
  | param h hname =>
    cases h' with
    | param h' => exact hst.unique h (heq ▸ h')
    | intrinsic _ hname' => exact absurd (heq ▸ hname) hname'
  | @intrinsic kind h hname =>
    cases h' with
    | param _ hname' => exact absurd (heq ▸ hname') hname
    | @intrinsic kind' h' =>
      obtain rfl : kind = kind' := by
        revert heq
        cases kind <;> cases kind' <;> decide
      exact hst.unique h h'

end GoesBy

theorem GoesBy.functional {name other : String} (h : GoesBy names st t name)
    (h' : GoesBy names st t other) : name = other := by
  cases h with
  | param h =>
    cases h' with
    | param h' => exact Form.param.inj (Option.some.inj (h.form.symm.trans h'.form))
    | intrinsic h' => cases h.form.symm.trans h'.form
  | intrinsic h =>
    cases h' with
    | param h' => cases h.form.symm.trans h'.form
    | intrinsic h' => rw [Form.intrinsic.inj (Option.some.inj (h.form.symm.trans h'.form))]

theorem GoesBy.ne_array {name : String} (h : GoesBy names st t name) (e : TypeId) :
    st.form? t ≠ some (.array e) := by
  intro he
  cases h with
  | param h => cases h.form.symm.trans he
  | intrinsic h => cases h.form.symm.trans he

namespace Spells

theorem lift (h : Spells names st n t x) : Spells names st (n + 1) t x := by
  induction h with
  | name h => exact .name h
  | array h _ ih => exact .array h ih
  | group c h _ hflat ih => exact .group c h ih hflat

theorem functional (h : Spells names st n t x) (h' : Spells names st n' t y) : x = y := by
  induction h generalizing n' y with
  | name h =>
    cases h' with
    | name h' => rw [h.functional h']
    | array h' => exact absurd h'.form (h.ne_array _)
    | group c h' => cases h.needsParens.symm.trans (needsParens_of_group h'.form)
  | array h _ ih =>
    cases h' with
    | name h' => exact absurd h.form (h'.ne_array _)
    | array h' he' =>
      obtain rfl := Form.array.inj (Option.some.inj (h.form.symm.trans h'.form))
      rw [ih he']
    | group c h' =>
      have hform := h.form.symm.trans h'.form
      cases c <;> cases hform
  | group c h _ _ ih =>
    cases h' with
    | name h' => cases h'.needsParens.symm.trans (needsParens_of_group h.form)
    | array h' =>
      have hform := h.form.symm.trans h'.form
      cases c <;> cases hform
    | group c' h' hms' =>
      have hform := h.form.symm.trans h'.form
      cases c <;> cases c' <;> cases hform <;>
        rw [List.map_congr_left fun m hm => ih m hm (hms' m hm)]

/-- There are no dots in what is written in full. -/
theorem dot_not_mem (hnames : ∀ name ∈ names, IsName name.toList) (h : Spells names st n t x) :
    '.' ∉ x := by
  induction h with
  | name h => exact fun hdot => (h.isName hnames).plain hdot (by decide)
  | @array _ _ e text _ _ ih =>
    unfold parenthesized
    split <;> simp [ih]
  | group c _ _ _ ih =>
    apply not_mem_intercalate
    · cases c <;> decide
    · simpa using ih

end Spells

/-- Whatever else is spelled at this place, and whatever stands before it, it is not mistaken for
the type. -/
def Separates (names : List String) (st : Store) (place : Place) (t : TypeId) (x : List Char) :
    Prop :=
  ∀ n u y start start', Spells names st n u y → place.Allows st u → After place.endings start →
    After place.endings start' → start ++ x = start' ++ y → t = u ∧ start = start'

structure Groups (names : List String) (st : Store) (c : Connective) (t : TypeId) (x : List Char)
    (items : List TypeId) (text : TypeId → List Char) : Prop where
  join : x = c.separator.intercalate (items.map text)
  item {m : TypeId} : m ∈ items → (Place.member c).Allows st m ∧ ∃ n, Spells names st n m (text m)
  whole : items = [t] ∨ Made (c.make items) t st ∧ 2 ≤ items.length

namespace Groups

variable {c : Connective} {items : List TypeId} {text text' : TypeId → List Char}

theorem single (h : Spells names st n t x) (ht : (Place.member c).Allows st t) :
    Groups names st c t x [t] fun _ => x where
  join := by simp
  item hm := by
    obtain rfl := List.mem_singleton.mp hm
    exact ⟨ht, n, h⟩
  whole := .inl rfl

/-- A union is spelled by its members, with separators between them. -/
theorem ofMembers (hst : st.Neat) (h : Made (c.make items) t st)
    (hms : ∀ m ∈ items, Spells names st n m (text m))
    (hflat : ∀ m ∈ items, (Place.member c).Allows st m) :
    Groups names st c t (c.separator.intercalate (items.map text)) items text where
  join := rfl
  item hm := ⟨hflat _ hm, n, hms _ hm⟩
  whole := by
    refine .inr ⟨h, ?_⟩
    cases c
    · exact hst.several (.inl h.form)
    · exact hst.several (.inr h.form)

theorem ne_nil (h : Groups names st c t x items text) : items ≠ [] := by
  rcases h.whole with rfl | ⟨_, hseveral⟩
  · simp
  · exact List.ne_nil_of_length_pos (Nat.lt_of_lt_of_le Nat.two_pos hseveral)

theorem unique (hst : st.Neat) (h : Groups names st c t x items text)
    (h' : Groups names st c u y items text') : t = u := by
  rcases h.whole with hone | ⟨hmade, hseveral⟩ <;> rcases h'.whole with hone' | ⟨hmade', hseveral'⟩
  · simpa using hone.symm.trans hone'
  · simp [hone] at hseveral'
  · simp [hone'] at hseveral
  · exact hst.unique hmade hmade'

end Groups

/-- A name ends in a letter and an array in a bracket, so neither ends in a parenthesis. -/
theorem Spells.ne_parenthesis (hnames : ∀ name ∈ names, IsName name.toList)
    (h : Spells names st n t x) (ht : st.needsParens t = false) (start text : List Char) :
    start ++ x ≠ text ++ [')'] := by
  cases h with
  | name h => exact (h.isName hnames).ne_append (by decide) rfl start text
  | array =>
    intro heq
    have hlast := congrArg List.getLast? heq
    simp at hlast
  | group c h => cases ht.symm.trans (needsParens_of_group h.form)

/-- Elements are told apart with their parentheses if they are told apart without. -/
theorem separates_element (hnames : ∀ name ∈ names, IsName name.toList) {e e' : TypeId} {n n' : Nat}
    {text text' : List Char} (he : Spells names st n e text) (he' : Spells names st n' e' text')
    (hsep : ∀ place : Place, place.Allows st e → Separates names st place e text)
    {start start' : List Char} (hs : After (Place.member .intersection).endings start)
    (hs' : After (Place.member .intersection).endings start')
    (heq : start ++ parenthesized (st.needsParens e) text =
      start' ++ parenthesized (st.needsParens e') text') : e = e' ∧ start = start' := by
  cases hp : st.needsParens e <;> cases hp' : st.needsParens e' <;> rw [hp, hp'] at heq
  · exact hsep (.member .intersection) hp _ e' text' start start' he' hp' hs hs' heq
  · exact absurd (heq.trans (List.append_assoc ..).symm) (he.ne_parenthesis hnames hp _ _)
  · exact absurd (heq.symm.trans (List.append_assoc ..).symm) (he'.ne_parenthesis hnames hp' _ _)
  · have hclosed : start ++ ['('] ++ text ++ [')'] = start' ++ ['('] ++ text' ++ [')'] := by
      simpa [parenthesized] using heq
    obtain ⟨rfl, hopen⟩ := hsep .alone trivial _ e' text' _ _ he' trivial (after_append _ _ _)
      (after_append _ _ _) (List.append_cancel_right hclosed)
    exact ⟨rfl, List.append_cancel_right hopen⟩

section Reading

variable (hst : st.Neat)

include hst

/-- Wherever unions or intersections can stand, a type is one or stands for itself. -/
theorem Spells.groups (h : Spells names st n t x) (c : Connective) (ht : c.place.Allows st t) :
    ∃ items text, Groups names st c t x items text := by
  have hspells := h
  cases h with
  | name h => exact ⟨_, _, .single hspells (allows_of_needsParens h.needsParens _)⟩
  | array h =>
    have hparens := needsParens_eq_false h.form (.inr (.inr ⟨_, rfl⟩))
    exact ⟨_, _, .single hspells (allows_of_needsParens hparens _)⟩
  | group c' h hms hflat =>
    cases c <;> cases c'
    · exact ⟨_, _, .ofMembers hst h hms hflat⟩
    · exact ⟨_, _, .single hspells (isUnion_of_form h.form)⟩
    · cases ht.symm.trans (isUnion_of_form h.form)
    · exact ⟨_, _, .ofMembers hst h hms hflat⟩

/-- If the members can be told apart, so can the whole. -/
theorem separates_of_items {c : Connective} {items : List TypeId} {text : TypeId → List Char}
    (h : Groups names st c t x items text)
    (hitems : ∀ m ∈ items, Separates names st (.member c) m (text m)) :
    Separates names st c.place t x := by
  intro n u y start start' hu hallows hs hs' heq
  obtain ⟨others, text', h'⟩ := hu.groups hst c hallows
  rw [h.join, h'.join] at heq
  obtain ⟨rfl, rfl⟩ := intercalate_cancel c.not_after
    (fun m hm o ho first first' hf hf' he =>
      have ⟨hplace, n, hspells⟩ := h'.item ho
      hitems m hm n o _ first first' hspells hplace (c.endings ▸ hf) (c.endings ▸ hf') he)
    h.ne_nil h'.ne_nil hs hs' heq
  exact ⟨h.unique hst h', rfl⟩

/-- What is told apart as a member is told apart where it is the only one. -/
theorem Separates.outward {c : Connective} (hsep : Separates names st (.member c) t x)
    (h : Spells names st n t x) (ht : (Place.member c).Allows st t) :
    Separates names st c.place t x :=
  separates_of_items hst (.single h ht) fun m hm => by
    obtain rfl := List.mem_singleton.mp hm
    exact hsep

theorem Separates.everywhere (hsep : Separates names st (.member .intersection) t x)
    (h : Spells names st n t x) (ht : st.needsParens t = false) (place : Place) :
    Separates names st place t x := by
  have hallows := allows_of_needsParens ht
  have hterm : Separates names st (.member .union) t x :=
    hsep.outward (c := .intersection) hst h (hallows _)
  rcases place with _ | _ | _
  · exact hterm.outward (c := .union) hst h (hallows _)
  · exact hterm
  · exact hsep

variable (hnames : ∀ name ∈ names, IsName name.toList)

include hnames

theorem separates_name {name : String} (h : GoesBy names st t name) :
    Separates names st (.member .intersection) t name.toList := by
  intro n u y start start' hu hparens hs hs' heq
  cases hu with
  | name h' =>
    obtain ⟨hname, hstart⟩ := (h.isName hnames).cancel (h'.isName hnames) hs hs' heq
    exact ⟨h.unique hst h' (String.toList_inj.mp hname), hstart⟩
  | array =>
    exact absurd heq ((h.isName hnames).ne_append (c := ']') (by decide) (by simp) start start')
  | group c h' => cases hparens.symm.trans (needsParens_of_group h'.form)

/-- An array ends in brackets, and its element is told apart before them. -/
theorem separates_array {e : TypeId} {text : List Char} (h : Made (.array e) t st)
    (he : Spells names st n e text)
    (hsep : ∀ place : Place, place.Allows st e → Separates names st place e text) :
    Separates names st (.member .intersection) t
      (parenthesized (st.needsParens e) text ++ ['[', ']']) := by
  intro n u y start start' hu hparens hs hs' heq
  cases hu with
  | name h' =>
    exact absurd heq.symm ((h'.isName hnames).ne_append (c := ']') (by decide)
      (by simp) start' start)
  | array h' he' =>
    rw [← List.append_assoc, ← List.append_assoc] at heq
    obtain ⟨rfl, hstart⟩ :=
      separates_element hnames he he' hsep hs hs' (List.append_cancel_right heq)
    exact ⟨hst.unique h h', hstart⟩
  | group c h' => cases hparens.symm.trans (needsParens_of_group h'.form)

/-- Wherever a type can stand, it is told from whatever else could stand there. -/
theorem Spells.separates (h : Spells names st n t x) :
    ∀ place : Place, place.Allows st t → Separates names st place t x := by
  induction h with
  | name h =>
    intro place _
    exact (separates_name hst hnames h).everywhere hst (n := 1) (.name h) h.needsParens place
  | array h he ih =>
    intro place _
    exact (separates_array hst hnames h he ih).everywhere hst (.array h he)
      (needsParens_eq_false h.form (.inr (.inr ⟨_, rfl⟩))) place
  | group c h hms hflat ih =>
    intro place hplace
    have hsep : Separates names st c.place _ _ :=
      separates_of_items hst (.ofMembers hst h hms hflat) fun m hm => ih m hm _ (hflat m hm)
    have hparens := needsParens_of_group h.form
    rcases c with _ | _ <;> rcases place with _ | _ | _
    · exact hsep
    · cases hplace.symm.trans (isUnion_of_form h.form)
    · cases hparens.symm.trans hplace
    · exact hsep.outward (c := .union) hst (.group .intersection h hms hflat)
        (isUnion_of_form h.form)
    · exact hsep
    · cases hparens.symm.trans hplace

/-- No two types have one spelling. -/
theorem Spells.unique (h : Spells names st n t x) (h' : Spells names st n' u x) : t = u :=
  (h.separates hst hnames .alone trivial n' u x [] [] h' trivial (.inl rfl) (.inl rfl) rfl).1

end Reading

def Legible (names : List String) (st : Store) (n : Nat) (t : TypeId) : Prop :=
  ∃ x, Spells names st n t x

theorem legible_name {name : String} (h : GoesBy names st t name) : Legible names st (n + 1) t :=
  ⟨_, .name h⟩

theorem legible_array {e : TypeId} (h : Made (.array e) t st) (he : Legible names st n e) :
    Legible names st (n + 1) t :=
  he.imp' _ fun _ he => .array h he

theorem legible_group (c : Connective) {ms : List TypeId} (h : Made (c.make ms) t st)
    (hflat : ∀ m ∈ ms, (Place.member c).Allows st m) (hms : ∀ m ∈ ms, Legible names st n m) :
    Legible names st (n + 1) t := by
  have htexts (m : TypeId) : ∃ x, m ∈ ms → Spells names st n m x := by
    by_cases hm : m ∈ ms
    · exact (hms m hm).imp fun _ hx _ => hx
    · exact ⟨[], fun h => absurd h hm⟩
  obtain ⟨text, htext⟩ := Classical.skolem.mp htexts
  exact ⟨_, .group c h htext hflat⟩

def spellable (names : List String) (st : Store) : Nat → TypeId → Bool
  | 0, _ => false
  | n + 1, t => st.isReserved t = false && match st.form? t with
    | some (.param name) => name ∈ names
    | some (.intrinsic kind) => kind.name ∉ names
    | some (.array e) => spellable names st n e
    | some (.union ms) =>
        ms.all fun m => (Place.member .union).Allows st m && spellable names st n m
    | some (.intersection ms) =>
      ms.all fun m => (Place.member .intersection).Allows st m && spellable names st n m
    | _ => false

/-- What the trial spells can be spelled. -/
theorem legible_of_spellable (h : st.spellable names n t = true) : Legible names st n t := by
  induction n generalizing t with
  | zero => cases h
  | succ n ih =>
    have hmembers {c : Connective} {ms : List TypeId}
        (hms : (ms.all fun m => (Place.member c).Allows st m && spellable names st n m) = true) :
        (∀ m ∈ ms, (Place.member c).Allows st m) ∧ ∀ m ∈ ms, Legible names st n m := by
      simp only [List.all_eq_true, Bool.and_eq_true, decide_eq_true_eq] at hms
      exact ⟨fun m hm => (hms m hm).1, fun m hm => ih (hms m hm).2⟩
    rw [spellable, Bool.and_eq_true, decide_eq_true_eq] at h
    obtain ⟨hinterned, h⟩ := h
    split at h
    · rename_i hform
      exact legible_name (.param ⟨hform, hinterned⟩ (of_decide_eq_true h))
    · rename_i hform
      exact legible_name (.intrinsic ⟨hform, hinterned⟩ (of_decide_eq_true h))
    · rename_i hform
      exact legible_array ⟨hform, hinterned⟩ (ih h)
    · rename_i hform
      obtain ⟨hflat, hms⟩ := hmembers (c := .union) h
      exact legible_group .union ⟨hform, hinterned⟩ hflat hms
    · rename_i hform
      obtain ⟨hflat, hms⟩ := hmembers (c := .intersection) h
      exact legible_group .intersection ⟨hform, hinterned⟩ hflat hms
    · cases h

end Store

end TypeCalculus
