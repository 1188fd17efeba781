import Mathlib.Algebra.GroupWithZero.Nat
import TypeCalculus.Proofs.Guarding
import TypeCalculus.Proofs.Spelling

namespace TypeCalculus

theorem mem_intercalate {separator : List Char} {c : Char} {xs : List (List Char)} {x : List Char}
    (hx : x ∈ xs) (hc : c ∈ x) : c ∈ separator.intercalate xs := by
  induction xs with
  | nil => cases hx
  | cons y ys ih =>
    rcases ys with _ | ⟨z, zs⟩
    · obtain rfl := List.mem_singleton.mp hx
      simpa using hc
    · rw [List.intercalate_cons_cons, List.mem_append, List.mem_append]
      rcases List.mem_cons.mp hx with rfl | hx
      · exact .inl (.inl hc)
      · exact .inr (ih hx)

namespace Store

/-- How many types are met when a type is written out, down to some level. -/
def nodes (st : Store) : Nat → TypeId → Nat
  | 0, _ => 0
  | n + 1, t => ((st.mentions t).map (st.nodes n)).sum + 1

variable {names : List String} {st : Store} {n n' : Nat} {t : TypeId} {x y : List Char}

theorem nodes_name {name : String} (h : GoesBy names st t name) : st.nodes (n + 1) t = 1 := by
  cases h with
  | param h => rw [nodes, mentions_of_form h.form]; rfl
  | intrinsic h => rw [nodes, mentions_of_form h.form]; rfl

theorem nodes_array {e : TypeId} (h : Made (.array e) t st) :
    st.nodes (n + 1) t = st.nodes n e + 1 := by
  rw [nodes, mentions_of_form h.form]
  rfl

theorem nodes_group {c : Connective} {ms : List TypeId} (h : Made (c.make ms) t st) :
    st.nodes (n + 1) t = (ms.map (st.nodes n)).sum + 1 := by
  rw [nodes, mentions_of_form h.form]
  cases c <;> rfl

/-- Once a type is spelled, deeper levels add nothing to it. -/
theorem Spells.nodes_lift (h : Spells names st n t x) : st.nodes (n + 1) t = st.nodes n t := by
  induction h with
  | name h => rw [nodes_name h, nodes_name h]
  | array h _ ih => rw [nodes_array h, nodes_array h, ih]
  | group c h _ _ ih => rw [nodes_group h, nodes_group h, List.map_congr_left ih]

theorem Spells.isSignature (h : Spells names st n t x) : st.isSignature t = false := by
  have hplain (ht : st.needsParens t = false) : st.isSignature t = false := by
    unfold needsParens at ht
    split at ht
    · cases ht
    · cases ht
    · exact ht
  cases h with
  | name h => exact hplain h.needsParens
  | array h => exact hplain (needsParens_eq_false h.form (.inr (.inr ⟨_, rfl⟩)))
  | group c h =>
    obtain ⟨node, hl, hnode⟩ := lookup_of_form h.form
    unfold Store.isSignature
    rw [hl]
    cases c <;> cases node <;> cases hnode <;> rfl

def spare (g : Guard TypeId) : Nat := g.limits.iterations - g.iterations

structure Admits (names : List String) (st : Store) (n : Nat) (g : Guard TypeId) : Prop where
  limits : g.limits = .rendering
  room : g.depth + n ≤ Limits.rendering.depth
  apart {k : TypeId} : k ∈ g.visiting → ¬ Legible names st n k

theorem Admits.kept {g g' : Guard TypeId} (h : Admits names st n g) (hk : g.Kept g') :
    Admits names st n g' where
  limits := hk.limits.trans h.limits
  room := hk.depth ▸ h.room
  apart hm := h.apart (hk.visiting ▸ hm)

theorem Admits.lower {g : Guard TypeId} (h : Admits names st (n + 1) g) : Admits names st n g where
  limits := h.limits
  room := Nat.le_of_succ_le h.room
  apart hm := fun ⟨x, hx⟩ => h.apart hm ⟨x, hx.lift⟩

/-- Whatever guard the action is given, it depends only on the visits that are left what it returns,
and how many are left then. -/
def Prints {α : Type} (names : List String) (st : Store) (n : Nat) (act : RenderM α) (before : Nat)
    (a : α) (after : Nat) : Prop :=
  ∀ g, Admits names st n g → spare g = before →
    Leads Guard.Kept act g fun b g' => b = a ∧ spare g' = after

namespace Prints

variable {α β : Type} {a : α} {b : β} {i j k : Nat}

theorem pure (a : α) (i : Nat) : Prints names st n (Pure.pure a) i a i :=
  fun _ _ hi => Leads.pure ⟨rfl, hi⟩

/-- The second action has the visits that the first one leaves. -/
theorem bind {act : RenderM α} {f : α → RenderM β} (h : Prints names st n act i a j)
    (hf : Prints names st n (f a) j b k) : Prints names st n (act >>= f) i b k := by
  intro g hg hi
  refine (h g hg hi).bind fun a' g' hk ha => ?_
  obtain ⟨rfl, hj⟩ := ha
  exact hf g' (hg.kept hk) hj

theorem lift {act : RenderM α} (h : Prints names st n act i a j) :
    Prints names st (n + 1) act i a j :=
  fun g hg => h g hg.lower

theorem refused (cycle : α) (body : RenderM α) :
    Prints names st n (visit t cycle a body) 0 a 0 := by
  intro g hg hi
  have hspent : g.Spent := by
    unfold spare at hi
    unfold Guard.Spent
    rw [hg.limits] at hi ⊢
    simp only [Limits.rendering, Guard.countLimit] at hi ⊢
    omega
  unfold Leads
  rw [run_visited, Guard.enter_counted hspent]
  refine ⟨⟨rfl, rfl, rfl, fun _ => rfl, rfl⟩, rfl, ?_⟩
  unfold Guard.Spent at hspent
  dsimp only [spare]
  omega

/-- A visit takes one of those that are left. -/
theorem visited {cycle limit : α} {body : RenderM α} (ht : Legible names st (n + 1) t)
    (hlow : ¬ Legible names st n t) (h : Prints names st n body i a j) :
    Prints names st (n + 1) (visit t cycle limit body) (i + 1) a j := by
  intro g hg hi
  have hcount : ¬ g.limits.iterations < min (g.iterations + 1) Guard.countLimit ∧
      g.iterations + 1 ≤ Guard.countLimit := by
    unfold spare at hi
    rw [hg.limits] at hi ⊢
    simp only [Limits.rendering, Guard.countLimit] at hi ⊢
    omega
  have hroom := hg.room
  obtain ⟨g', he, hinside, hiterations, _⟩ := Guard.enter_new hcount.1 (by rw [hg.limits]; omega)
    fun hm => hg.apart hm ht
  have hadmits : Admits names st n g' := by
    refine ⟨hinside.limits.trans hg.limits, by rw [hinside.depth]; omega, fun {k} hk => ?_⟩
    rw [hinside.visiting] at hk
    rcases List.mem_cons.mp hk with rfl | hk
    · exact hlow
    · exact hg.lower.apart hk
  have hspare : spare g' = i := by
    unfold spare at hi ⊢
    rw [hinside.limits, hiterations, Nat.min_eq_left hcount.2]
    omega
  obtain ⟨hkept, ha, hj⟩ := h g' hadmits hspare
  unfold Leads
  rw [run_visited, he]
  refine ⟨hinside.leave hkept, ha, ?_⟩
  unfold spare at hj ⊢
  rw [Guard.leave_limits, Guard.leave_iterations]
  exact hj

end Prints

def Delivers (names : List String) (st : Store) (n : Nat) (act : RenderM String) (count : Nat)
    (x : List Char) : Prop :=
  ∀ i, ∃ text, Prints names st n act i text (i - count) ∧
    (count ≤ i ∧ text.toList = x ∨ i < count ∧ '.' ∈ text.toList)

section Step

variable {write : TypeId → RenderM String} {count : Nat}

theorem delivers_bracketed (h : Delivers names st n (write t) count x) (brackets : Bool) :
    Delivers names st n (bracketed write brackets t) count (parenthesized brackets x) := by
  intro i
  obtain ⟨text, hprints, htext⟩ := h i
  refine ⟨_, hprints.bind (.pure _ _), ?_⟩
  cases brackets
  · exact htext
  · rcases htext with ⟨hi, rfl⟩ | ⟨hi, hdot⟩
    · exact .inl ⟨hi, by simp [parenthesized]⟩
    · exact .inr ⟨hi, by simp [hdot]⟩

theorem writeNode_group {c : Connective} {ms : List TypeId} (h : Made (c.make ms) t st) :
    st.writeNode write t = writeMembers st write (String.ofList c.separator) ms := by
  obtain ⟨node, hl, hnode⟩ := lookup_of_form h.form
  unfold writeNode
  rw [hl]
  cases c <;> cases node <;> cases hnode <;> rfl

/-- Members are written one after the other, until the visits are used up. -/
theorem prints_mapM {f : TypeId → RenderM String} {cost : TypeId → Nat} {text : TypeId → List Char}
    {ms : List TypeId} (h : ∀ m ∈ ms, Delivers names st n (f m) (cost m) (text m)) (i : Nat) :
    ∃ texts, Prints names st n (ms.mapM f) i texts (i - (ms.map cost).sum) ∧
      ((ms.map cost).sum ≤ i ∧ texts.map String.toList = ms.map text ∨
        i < (ms.map cost).sum ∧ ∃ part ∈ texts, '.' ∈ part.toList) := by
  induction ms generalizing i with
  | nil => exact ⟨[], .pure [] i, .inl ⟨Nat.zero_le i, rfl⟩⟩
  | cons m ms ih =>
    obtain ⟨part, hpart, hfirst⟩ := h m List.mem_cons_self i
    obtain ⟨texts, htexts, hrest⟩ := ih (fun o ho => h o (List.mem_cons_of_mem _ ho)) (i - cost m)
    refine ⟨part :: texts, ?_, ?_⟩
    · rw [List.mapM_cons, List.map_cons, List.sum_cons, ← Nat.sub_sub]
      exact hpart.bind (htexts.bind (.pure _ _))
    · simp only [List.map_cons, List.sum_cons, List.mem_cons]
      rcases hfirst with ⟨hi, hpart⟩ | ⟨hi, hdot⟩
      · rcases hrest with ⟨hsum, htexts⟩ | ⟨hsum, other, hother, hdot⟩
        · exact .inl ⟨by omega, by rw [hpart, htexts]⟩
        · exact .inr ⟨by omega, other, .inr hother, hdot⟩
      · exact .inr ⟨by omega, part, .inl rfl, hdot⟩

theorem delivers_visit {body : RenderM String} (ht : Legible names st (n + 1) t)
    (hlow : ¬ Legible names st n t) (h : Delivers names st n body count x) :
    Delivers names st (n + 1) (visit t "..." "..." body) (count + 1) x := by
  intro i
  cases i with
  | zero =>
    refine ⟨"...", ?_, .inr ⟨Nat.zero_lt_succ _, by decide⟩⟩
    rw [Nat.zero_sub]
    exact .refused "..." body
  | succ i =>
    obtain ⟨text, hprints, htext⟩ := h i
    refine ⟨text, ?_, ?_⟩
    · rw [Nat.add_sub_add_right]
      exact hprints.visited ht hlow
    · exact htext.imp (And.imp_left Nat.succ_le_succ) (And.imp_left Nat.succ_lt_succ)

variable (hwrite : ∀ m x, Spells names st n m x → Delivers names st n (write m) (st.nodes n m) x)

include hwrite

/-- A union is written with its separators, if there are enough visits for its members. -/
theorem delivers_members {ms : List TypeId} {text : TypeId → List Char} (separator : String)
    (hms : ∀ m ∈ ms, Spells names st n m (text m)) :
    Delivers names st n (writeMembers st write separator ms) ((ms.map (st.nodes n)).sum)
      (separator.toList.intercalate (ms.map text)) := by
  have hmember (m : TypeId) (hm : m ∈ ms) :
      Delivers names st n (bracketed write (st.isSignature m) m) (st.nodes n m) (text m) := by
    rw [(hms m hm).isSignature]
    exact delivers_bracketed (hwrite m _ (hms m hm)) false
  intro i
  obtain ⟨texts, hprints, htexts⟩ := prints_mapM hmember i
  refine ⟨_, hprints.bind (.pure _ _), ?_⟩
  rw [String.toList_intercalate]
  rcases htexts with ⟨hi, htexts⟩ | ⟨hi, part, hpart, hdot⟩
  · exact .inl ⟨hi, by rw [htexts]⟩
  · exact .inr ⟨hi, mem_intercalate (List.mem_map_of_mem hpart) hdot⟩

/-- One level writes what is spelled, if the levels below do. -/
theorem delivers_step (h : Spells names st (n + 1) t x) (hlow : ¬ Legible names st n t) :
    Delivers names st (n + 1) (st.renderStep write t) (st.nodes (n + 1) t) x := by
  have ht : Legible names st (n + 1) t := ⟨x, h⟩
  cases h with
  | @name _ _ name h =>
    have hnode : st.writeNode write t = pure name := by
      unfold writeNode
      cases h with
      | param h | intrinsic h =>
        obtain ⟨node, hl, hnode⟩ := lookup_of_form h.form
        rw [hl]
        cases node <;> cases hnode
        rfl
    rw [nodes_name h, renderStep, hnode]
    exact delivers_visit ht hlow fun i => ⟨name, .pure name i, .inl ⟨Nat.zero_le i, rfl⟩⟩
  | @array _ _ e text h he =>
    have hnode : st.writeNode write t =
        return (← bracketed write (st.needsParens e) e) ++ "[]" := by
      unfold writeNode
      obtain ⟨node, hl, hnode⟩ := lookup_of_form h.form
      rw [hl]
      cases node <;> cases hnode
      rfl
    rw [nodes_array h, renderStep, hnode]
    apply delivers_visit ht hlow
    intro i
    obtain ⟨inner, hprints, hinner⟩ := delivers_bracketed (hwrite e text he) (st.needsParens e) i
    refine ⟨_, hprints.bind (.pure _ _), ?_⟩
    rw [String.toList_append]
    exact hinner.imp (And.imp_right fun hinner => by rw [hinner]; rfl)
      (And.imp_right (List.mem_append_left _))
  | @group _ _ ms text c h hms =>
    have hmembers := delivers_members hwrite (String.ofList c.separator) hms
    rw [String.toList_ofList] at hmembers
    rw [nodes_group h, renderStep, writeNode_group h]
    exact delivers_visit ht hlow hmembers

end Step

/-- At every level a type is written as it is spelled, or with dots in it. -/
theorem delivers_render (n room : Nat) (hroom : n ≤ room + 1) (h : Spells names st n t x) :
    Delivers names st n (descend st.renderStep (fun _ => return "...") room t)
      (st.nodes n t) x := by
  induction n generalizing room t x with
  | zero => cases h
  | succ n ih =>
    -- the level is lowered as long as possible, so that nothing of a lower level is the type itself
    by_cases hlow : Legible names st n t
    · obtain ⟨y, hy⟩ := hlow
      obtain rfl := hy.functional h
      intro i
      obtain ⟨text, hprints, htext⟩ := ih room (Nat.le_of_succ_le hroom) hy i
      rw [hy.nodes_lift]
      exact ⟨text, hprints.lift, htext⟩
    · cases room with
      | zero =>
        obtain rfl : n = 0 := by omega
        exact delivers_step (fun _ _ hm => by cases hm) h hlow
      | succ room =>
        exact delivers_step (fun _ _ hm => ih room (Nat.le_of_succ_le_succ hroom) hm) h hlow

theorem admits_start (names : List String) (st : Store) (iterations : Nat)
    (hn : n ≤ Limits.rendering.depth) : Admits names st n { limits := .rendering, iterations } where
  limits := rfl
  room := Nat.le_trans (Nat.le_of_eq (Nat.zero_add n)) hn
  apart hk := by cases hk

/-- Types of few enough levels are written as they are spelled, or there are dots in what is
written. -/
theorem render_spelled (h : Spells names st Limits.rendering.depth t x) :
    st.nodes Limits.rendering.depth t ≤ Limits.rendering.iterations ∧ (st.render t).toList = x ∨
      Limits.rendering.iterations < st.nodes Limits.rendering.depth t ∧
      '.' ∈ (st.render t).toList := by
  obtain ⟨text, hprints, htext⟩ :=
    delivers_render _ Limits.rendering.depth (Nat.le_succ _) h Limits.rendering.iterations
  obtain ⟨_, hrun, _⟩ := hprints _ (admits_start names st 0 (Nat.le_refl _)) rfl
  have hrender : st.render t = text := hrun
  rw [hrender]
  exact htext

end Store

/-- Two types made of parameters, intrinsics, arrays, unions and intersections, in at most 32
levels, are never written alike if at least one of them can be written in 10000 visits. The members
of a union are to be no unions and those of an intersection neither unions nor intersections, and no
parameter may have the name of an intrinsic that is used. -/
theorem Operation.renderings_differ {ops : List Operation} (h : ∀ op ∈ ops, op.isRaw = false)
    {names : List String} (hnames : ∀ name ∈ names, IsName name.toList) {t u : TypeId}
    (ht : (afterAll .initial ops).Legible names Limits.rendering.depth t)
    (hu : (afterAll .initial ops).Legible names Limits.rendering.depth u)
    (hcount : (afterAll .initial ops).nodes Limits.rendering.depth t ≤ Limits.rendering.iterations)
    (hne : t ≠ u) : (afterAll .initial ops).render t ≠ (afterAll .initial ops).render u := by
  obtain ⟨x, hx⟩ := ht
  obtain ⟨y, hy⟩ := hu
  intro heq
  have htext : ((afterAll .initial ops).render t).toList = x :=
    ((Store.render_spelled hx).resolve_right fun hover => Nat.not_lt.mpr hcount hover.1).2
  rcases Store.render_spelled hy with ⟨_, hother⟩ | ⟨_, hdot⟩
  · rw [heq, hother] at htext
    exact hne (hx.unique (Store.neat_afterAll h) hnames (htext ▸ hy))
  · rw [← heq, htext] at hdot
    exact hx.dot_not_mem hnames hdot

namespace Operation

/-- Among others `A | B & C`, then `A | B` and `C` intersected, and at last `C & (A | B)[]`. -/
def threeNames : List Operation :=
  [.build (.param "A"), .build (.param "B"), .build (.union [12, 13]), .build (.param "C"),
    .build (.intersection [13, 15]), .build (.union [12, 16]), .build (.intersection [14, 15]),
    .build (.array 14), .build (.intersection [15, 19])]

def letters : List String := ["A", "B", "C", "D", "E", "F"]

theorem isName_letters : ∀ name ∈ letters, IsName name.toList := by
  decide

theorem renderings_differ_threeNames :
    (∀ op ∈ threeNames, op.isRaw = false) ∧
      (afterAll .initial threeNames).Legible letters Limits.rendering.depth 17 ∧
      (afterAll .initial threeNames).Legible letters Limits.rendering.depth 20 ∧
      (afterAll .initial threeNames).nodes Limits.rendering.depth 17 = 5 ∧
      (afterAll .initial threeNames).render 17 ≠ (afterAll .initial threeNames).render 20 := by
  have hraw : ∀ op ∈ threeNames, op.isRaw = false := by decide
  have hmixed : (afterAll .initial threeNames).Legible letters Limits.rendering.depth 17 :=
    Store.legible_of_spellable (by decide)
  have hnested : (afterAll .initial threeNames).Legible letters Limits.rendering.depth 20 :=
    Store.legible_of_spellable (by decide)
  have hcount : (afterAll .initial threeNames).nodes Limits.rendering.depth 17 = 5 := by decide
  exact ⟨hraw, hmixed, hnested, hcount,
    renderings_differ hraw isName_letters hmixed hnested (by rw [hcount]; decide) (by decide)⟩

end Operation

namespace Store

variable {names : List String} {st : Store} {n : Nat} {t y c : TypeId}

/-- A type that can be read has a lowest level at which it can. -/
theorem exists_level (h : Legible names st n t) :
    ∃ k < n, Legible names st (k + 1) t ∧ ¬ Legible names st k t := by
  induction n with
  | zero =>
    obtain ⟨_, h⟩ := h
    cases h
  | succ n ih =>
    by_cases hlow : Legible names st n t
    · obtain ⟨k, hk, hlevel⟩ := ih hlow
      exact ⟨k, Nat.lt_succ_of_lt hk, hlevel⟩
    · exact ⟨n, Nat.lt_succ_self n, h, hlow⟩

theorem Spells.lift_le {x : List Char} {m : Nat} (h : Spells names st n t x) (hm : n ≤ m) :
    Spells names st m t x ∧ st.nodes m t = st.nodes n t := by
  induction hm with
  | refl => exact ⟨h, rfl⟩
  | step _ ih => exact ⟨ih.1.lift, ih.1.nodes_lift.trans ih.2⟩

theorem prints_pair {write : TypeId → RenderM String} {first second : String} {i j k : Nat}
    (hy : st.isSignature y = false) (hc : st.isSignature c = false)
    (hfirst : Prints names st n (write y) i first j)
    (hsecond : Prints names st n (write c) j second k) (separator : String) :
    Prints names st n (writeMembers st write separator [y, c]) i
      (separator.intercalate [first, second]) k := by
  have hmembers : Prints names st n ([y, c].mapM fun t => bracketed write (st.isSignature t) t) i
      [first, second] k := by
    rw [List.mapM_cons, List.mapM_cons, List.mapM_nil, hy, hc]
    refine (hfirst.bind (.pure _ _)).bind (Prints.bind (a := [second]) ?_ (.pure _ _))
    exact (hsecond.bind (.pure _ _)).bind (Prints.bind (a := []) (.pure [] k) (.pure _ _))
  exact hmembers.bind (.pure _ _)

/-- If the first of two members takes all visits that are left, nothing is written of the other. -/
theorem render_cut_short (ht : Legible names st Limits.rendering.depth t)
    (h : Made (.union [y, c]) t st) (hcount : Limits.rendering.iterations ≤ st.nodes 31 y) :
    st.render t = " | ".intercalate
      [(Action.run (descend st.renderStep (fun _ => return "...") 31 y)
      { limits := .rendering, iterations := 1 }).1, "..."] := by
  obtain ⟨k, hk, hlegible, hlow⟩ := exists_level ht
  obtain ⟨x, hy, hsignature⟩ : ∃ x, Spells names st k y x ∧ st.isSignature c = false := by
    obtain ⟨_, hspells⟩ := hlegible
    cases hspells with
    | name hname => cases hname.needsParens.symm.trans (needsParens_of_group (c := .union) h.form)
    | array h' => cases h.form.symm.trans h'.form
    | group connective h' hms =>
      have hform := h.form.symm.trans h'.form
      cases connective <;> cases hform
      exact ⟨_, hms y (by simp), (hms c (by simp)).isSignature⟩
  obtain ⟨text, hprints, _⟩ := delivers_render k 31 (Nat.le_of_lt hk) hy 9999
  have hspent : 9999 - st.nodes k y = 0 := by
    rw [← (hy.lift_le (Nat.le_of_lt_succ hk)).2]
    exact Nat.sub_eq_zero_of_le (Nat.le_of_succ_le hcount)
  rw [hspent] at hprints
  have hnode := prints_pair hy.isSignature hsignature hprints (.refused "..." _) " | "
  have hbody : st.writeNode (descend st.renderStep (fun _ => return "...") 31) t =
      writeMembers st (descend st.renderStep (fun _ => return "...") 31) " | " [y, c] :=
    writeNode_group (c := .union) h
  rw [← hbody] at hnode
  have hvisit : Prints names st (k + 1)
      (st.renderStep (descend st.renderStep (fun _ => return "...") 31) t)
      10000 (" | ".intercalate [text, "..."]) 0 := hnode.visited hlegible hlow
  obtain ⟨_, hfirst, _⟩ := hprints _ (admits_start names st 1 (Nat.le_of_lt hk)) rfl
  obtain ⟨_, hrun, _⟩ := hvisit _ (admits_start names st 0 hk) rfl
  rw [hfirst]
  exact hrun

end Store

namespace Operation

def layer (s : TypeId) : List Operation :=
  [.build (.array (s - 1)), .build (.intersection [12, s]), .build (.intersection [13, s]),
    .build (.intersection [14, s]), .build (.intersection [15, s]),
    .build (.union [s + 1, s + 2, s + 3, s + 4])]

/-- Six layers over one parameter, the array of them, and its unions with two more parameters. -/
def crowded : List Operation :=
  [.build (.param "A"), .build (.param "B"), .build (.param "C"), .build (.param "D")] ++
    (List.range 6).flatMap (fun i => layer (16 + 6 * i)) ++
    [.build (.array 51), .build (.param "E"), .build (.param "F"), .build (.union [52, 53]),
      .build (.union [52, 54])]

/-- What became of the operations, as far as it is needed. -/
theorem crowded_built : builds .initial crowded = true ∧
    (∀ t : Nat, t < 57 → (afterAll .initial crowded).isReserved t = false) ∧
    (∀ t ∈ [12, 13, 14, 15, 53, 54], ∃ name ∈ letters,
      (afterAll .initial crowded).form? t = some (.param name)) ∧
    (∀ i < 6, (afterAll .initial crowded).form? (16 + 6 * i) = some (.array (15 + 6 * i)) ∧
      (∀ k < 4, (afterAll .initial crowded).form? (17 + 6 * i + k) =
        some (.intersection [12 + k, 16 + 6 * i])) ∧
      (afterAll .initial crowded).form? (21 + 6 * i) =
        some (.union [17 + 6 * i, 18 + 6 * i, 19 + 6 * i, 20 + 6 * i])) ∧
    (afterAll .initial crowded).form? 52 = some (.array 51) ∧
    (afterAll .initial crowded).form? 55 = some (.union [52, 53]) ∧
    (afterAll .initial crowded).form? 56 = some (.union [52, 54]) := by
  decide +kernel

theorem made_crowded {t : Nat} {f : Form} (h : (afterAll .initial crowded).form? t = some f)
    (ht : t < 57) :
    Store.Made f t (afterAll .initial crowded) :=
  ⟨h, crowded_built.2.1 t ht⟩

theorem goesBy_crowded {t : Nat} (ht : t ∈ [12, 13, 14, 15, 53, 54]) :
    ∃ name, (afterAll .initial crowded).GoesBy letters t name := by
  obtain ⟨name, hname, hform⟩ := crowded_built.2.2.1 t ht
  have hsize : ∀ t ∈ [12, 13, 14, 15, 53, 54], t < 57 := by decide
  exact ⟨name, .param (made_crowded hform (hsize t ht)) hname⟩

theorem crossing_crowded {i k n count : Nat} (hi : i < 6) (hk : k < 4)
    (hlegible : (afterAll .initial crowded).Legible letters (n + 1) (15 + 6 * i))
    (hcount : (afterAll .initial crowded).nodes (n + 1) (15 + 6 * i) = count) :
    (afterAll .initial crowded).Legible letters (n + 3) (17 + 6 * i + k) ∧
      (afterAll .initial crowded).nodes (n + 3) (17 + 6 * i + k) = count + 3 ∧
      (afterAll .initial crowded).isUnion (17 + 6 * i + k) = false := by
  obtain ⟨harray, hcross, _⟩ := crowded_built.2.2.2.1 i hi
  obtain ⟨name, hname⟩ := goesBy_crowded (t := 12 + k) (by revert k; decide)
  have hmade := made_crowded harray (by omega)
  have hcrossing := made_crowded (hcross k hk) (by omega)
  refine ⟨Store.legible_group .intersection hcrossing ?_ ?_, ?_,
    Store.isUnion_of_form (hcross k hk)⟩
  · simp only [List.forall_mem_cons, List.not_mem_nil, false_implies, implies_true, and_true]
    exact ⟨hname.needsParens, Store.needsParens_eq_false harray (.inr (.inr ⟨_, rfl⟩))⟩
  · simp only [List.forall_mem_cons, List.not_mem_nil, false_implies, implies_true, and_true]
    exact ⟨Store.legible_name hname, Store.legible_array hmade hlegible⟩
  · rw [Store.nodes_group (c := .intersection) hcrossing, List.map_cons, List.map_singleton,
      Store.nodes_name hname, Store.nodes_array hmade, hcount]
    simp only [List.sum_cons, List.sum_nil]
    omega

def layerNodes : Nat → Nat
  | 0 => 1
  | i + 1 => 4 * (layerNodes i + 3) + 1

theorem layers_crowded {i n t : Nat} (hi : i ≤ 6) (hn : n = 3 * i) (ht : t = 15 + 6 * i) :
    (afterAll .initial crowded).Legible letters (n + 1) t ∧
      (afterAll .initial crowded).nodes (n + 1) t = layerNodes i := by
  induction i generalizing n t with
  | zero =>
    subst hn ht
    obtain ⟨name, hname⟩ := goesBy_crowded (t := 15) (by decide)
    exact ⟨Store.legible_name hname, Store.nodes_name hname⟩
  | succ i ih =>
    obtain rfl : n = 3 * i + 3 := hn
    obtain rfl : t = 21 + 6 * i := by omega
    obtain ⟨hlegible, hcount⟩ := ih (Nat.le_of_succ_le hi) rfl rfl
    have hunion := made_crowded (crowded_built.2.2.2.1 i hi).2.2 (by omega)
    have hcrossing (m : Nat) (hm : m ∈ [17 + 6 * i, 18 + 6 * i, 19 + 6 * i, 20 + 6 * i]) :
        (afterAll .initial crowded).Legible letters (3 * i + 3) m ∧
          (afterAll .initial crowded).nodes (3 * i + 3) m =
            (afterAll .initial crowded).nodes (3 * i + 1) (15 + 6 * i) + 3 ∧
          (afterAll .initial crowded).isUnion m = false := by
      obtain ⟨k, hk, rfl⟩ : ∃ k < 4, m = 17 + 6 * i + k := by
        revert m
        simp only [List.forall_mem_cons, List.not_mem_nil, false_implies, implies_true, and_true]
        exact ⟨⟨0, by omega⟩, ⟨1, by omega⟩, ⟨2, by omega⟩, ⟨3, by omega⟩⟩
      exact crossing_crowded hi hk hlegible rfl
    refine ⟨Store.legible_group .union hunion (fun m hm => (hcrossing m hm).2.2)
      (fun m hm => (hcrossing m hm).1), ?_⟩
    rw [Store.nodes_group (c := .union) hunion,
      List.map_congr_left fun m hm => (hcrossing m hm).2.1,
      hcount]
    simp only [List.map_cons, List.map_nil, List.sum_cons, List.sum_nil, layerNodes]
    omega

/-- The six layers take more visits than there are. -/
theorem array_crowded : (afterAll .initial crowded).Legible letters 31 52 ∧
    Limits.rendering.iterations ≤ (afterAll .initial crowded).nodes 31 52 := by
  obtain ⟨hlayers, hcount⟩ := layers_crowded (n := 18) (t := 51) (Nat.le_refl 6) rfl rfl
  obtain ⟨_, _, _, _, hform, _⟩ := crowded_built
  have harray := made_crowded hform (by decide)
  obtain ⟨x, hx⟩ := Store.legible_array harray hlayers
  obtain ⟨hdeep, hnodes⟩ := hx.lift_le (m := 31) (by decide)
  refine ⟨⟨x, hdeep⟩, ?_⟩
  have hmany : Limits.rendering.iterations ≤ layerNodes 6 := by decide
  rw [hnodes.trans (Store.nodes_array harray), hcount]
  omega

theorem legible_crowded {t c : Nat} (hc : c ∈ [12, 13, 14, 15, 53, 54])
    (h : Store.Made (.union [52, c]) t (afterAll .initial crowded)) :
    (afterAll .initial crowded).Legible letters Limits.rendering.depth t := by
  obtain ⟨_, _, _, _, harray, _⟩ := crowded_built
  obtain ⟨name, hname⟩ := goesBy_crowded hc
  refine Store.legible_group .union h ?_ ?_
  · simp only [List.forall_mem_cons, List.not_mem_nil, false_implies, implies_true, and_true]
    exact ⟨Store.isUnion_of_form harray, Store.allows_of_needsParens hname.needsParens _⟩
  · simp only [List.forall_mem_cons, List.not_mem_nil, false_implies, implies_true, and_true]
    exact ⟨array_crowded.1, Store.legible_name hname⟩

/-- A union is made before one of its members, which then turns out to be a union too. -/
def hastyUnion : List Operation :=
  [.build (.param "A"), .build (.param "B"), .build (.param "C"), .build (.union [12, 16]),
    .build (.union [13, 14]), .build (.union [12, 13, 14])]

/-- Two types are written alike if all visits are used up by what they have in common, if one of
them has a member that was used before it was there, or if a union is a member of an
intersection. -/
theorem renderings_coincide :
    (builds .initial crowded = true ∧
      (afterAll .initial crowded).Legible letters Limits.rendering.depth 55 ∧
      (afterAll .initial crowded).Legible letters Limits.rendering.depth 56 ∧
      (afterAll .initial crowded).render 55 = (afterAll .initial crowded).render 56) ∧
    ((∀ op ∈ hastyUnion, op.isRaw = false) ∧
      (afterAll .initial hastyUnion).render 15 = (afterAll .initial hastyUnion).render 17) ∧
    builds .initial threeNames = true ∧
      (afterAll .initial threeNames).render 17 = (afterAll .initial threeNames).render 18 := by
  obtain ⟨hbuilds, _, _, _, _, hleft, hright⟩ := crowded_built
  have hmade := made_crowded hleft (by decide)
  have hmade' := made_crowded hright (by decide)
  have hlegible := legible_crowded (by decide) hmade
  have hlegible' := legible_crowded (by decide) hmade'
  have halike : (afterAll .initial crowded).render 55 = (afterAll .initial crowded).render 56 :=
    (Store.render_cut_short hlegible hmade array_crowded.2).trans
      (Store.render_cut_short hlegible' hmade' array_crowded.2).symm
  exact ⟨⟨hbuilds, hlegible, hlegible', halike⟩, ⟨by decide, by decide +kernel⟩, by decide,
    by decide +kernel⟩

end Operation

end TypeCalculus
