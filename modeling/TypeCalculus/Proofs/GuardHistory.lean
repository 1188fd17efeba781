import TypeCalculus.Proofs.Visits

namespace TypeCalculus.Guard

variable {κ : Type}

/-- What happens to a guard. A visit that was asked for stands with the answer that was given. -/
inductive Event (κ : Type)
  | asked (key : κ) (answer : Admission)
  | left (key : κ)
  | reset

namespace Event

def isAsked : Event κ → Bool
  | .asked _ _ => true
  | _ => false

def isReset : Event κ → Bool
  | .reset => true
  | _ => false

def isRefusal : Event κ → Bool
  | .asked _ answer => answer.isExceeded
  | _ => false

end Event

def recent (past : List (Event κ)) : List (Event κ) := past.takeWhile (!·.isReset)

def asks (past : List (Event κ)) : Nat := (recent past).countP Event.isAsked

def Open (past : List (Event κ)) (key : κ) : Prop :=
  ∃ later earlier, past = later ++ .asked key .entered :: earlier ∧ .left key ∉ later ∧
  .reset ∉ later

theorem recent_asked (past : List (Event κ)) (key : κ) (answer : Admission) :
    recent (.asked key answer :: past) = .asked key answer :: recent past := rfl

theorem recent_left (past : List (Event κ)) (key : κ) :
    recent (.left key :: past) = .left key :: recent past := rfl

theorem asks_asked (past : List (Event κ)) (key : κ) (answer : Admission) :
    asks (.asked key answer :: past) = asks past + 1 := by
  rw [asks, recent_asked, List.countP_cons_of_pos rfl, asks]

theorem asks_left (past : List (Event κ)) (key : κ) : asks (.left key :: past) = asks past := by
  rw [asks, recent_left, List.countP_cons_of_neg Bool.false_ne_true, asks]

theorem open_cons (event : Event κ) (past : List (Event κ)) (key : κ) :
    Open (event :: past) key ↔
      event = .asked key .entered ∨ event ≠ .left key ∧ event ≠ .reset ∧ Open past key := by
  constructor
  · rintro ⟨later, earlier, hsplit, hleft, hreset⟩
    cases later with
    | nil => exact .inl (List.cons.inj hsplit).1
    | cons last later =>
      obtain ⟨rfl, rfl⟩ := List.cons.inj hsplit
      rw [List.mem_cons, not_or] at hleft hreset
      exact .inr ⟨fun h => hleft.1 h.symm, fun h => hreset.1 h.symm, later, earlier, rfl,
        hleft.2, hreset.2⟩
  · rintro (rfl | ⟨hleft, hreset, later, earlier, rfl, hnone, hnever⟩)
    · exact ⟨[], past, rfl, List.not_mem_nil, List.not_mem_nil⟩
    · refine ⟨event :: later, earlier, rfl, ?_, ?_⟩
      · exact List.not_mem_cons_of_ne_of_not_mem (Ne.symm hleft) hnone
      · exact List.not_mem_cons_of_ne_of_not_mem (Ne.symm hreset) hnever

theorem not_open_nil (key : κ) : ¬ Open [] key := by
  rintro ⟨later, earlier, hsplit, _⟩
  exact List.append_ne_nil_of_right_ne_nil later (List.cons_ne_nil _ earlier) hsplit.symm

/-- A visit that is not admitted opens nothing. -/
theorem open_asked {answer : Admission} (hanswer : answer ≠ .entered) (past : List (Event κ))
    (key other : κ) :
    Open (.asked key answer :: past) other ↔ Open past other := by
  rw [open_cons]
  constructor
  · rintro (h | ⟨_, _, h⟩)
    · exact absurd (Event.asked.inj h).2 hanswer
    · exact h
  · exact fun h => .inr ⟨by simp, by simp, h⟩

structure Reflects (limits : Limits) (past : List (Event κ)) (g : Guard κ) : Prop where
  limits : g.limits = limits
  depth : g.depth = g.visiting.length
  nodup : g.visiting.Nodup
  bound : g.depth ≤ g.limits.depth
  iterations : g.iterations = min (asks past) countLimit
  visiting (key : κ) : key ∈ g.visiting ↔ Open past key
  exceeded : g.exceeded = true ↔ ∃ event ∈ recent past, event.isRefusal = true

theorem Reflects.start (limits : Limits) : Reflects limits [] (.start limits : Guard κ) where
  limits := rfl
  depth := rfl
  nodup := List.nodup_nil
  bound := Nat.zero_le _
  iterations := rfl
  visiting key := ⟨fun h => absurd h List.not_mem_nil, fun h => absurd h (not_open_nil key)⟩
  exceeded := by simp [Guard.start, recent]

theorem Reflects.reset {limits : Limits} {past : List (Event κ)} {g : Guard κ}
    (h : Reflects limits past g) :
    Reflects limits (.reset :: past) g.reset where
  limits := h.limits
  depth := rfl
  nodup := List.nodup_nil
  bound := Nat.zero_le _
  iterations := rfl
  visiting key := by simp [Guard.reset, open_cons]
  exceeded := by simp [Guard.reset, recent, Event.isReset]

variable [DecidableEq κ]

/-- The guards under these limits, with what has happened to them. A key is left while it is being
visited, though it need not be the one that was entered last. -/
inductive Lived (limits : Limits) : List (Event κ) → Guard κ → Prop
  | start : Lived limits [] (.start limits)
  | enter {past : List (Event κ)} {g : Guard κ} (h : Lived limits past g) (key : κ) :
    Lived limits (.asked key (g.enter key).1 :: past) (g.enter key).2
  | leave {past : List (Event κ)} {g : Guard κ} (h : Lived limits past g) {key : κ}
    (hkey : g.isVisiting key = true) : Lived limits (.left key :: past) (g.leave key)
  | reset {past : List (Event κ)} {g : Guard κ} (h : Lived limits past g) :
    Lived limits (.reset :: past) g.reset

/-- The flag is set by the first refusal and stays set. -/
theorem enter_exceeded (g : Guard κ) (key : κ) :
    (g.enter key).2.exceeded = (g.exceeded || (g.enter key).1.isExceeded) := by
  unfold enter
  dsimp only
  split
  · simp [Admission.isExceeded]
  · split
    · simp [Admission.isExceeded]
    · split <;> simp [Admission.isExceeded]

/-- Of the reasons not to admit a visit, the first that there is decides. -/
theorem enter_answer (g : Guard κ) (key : κ) :
    (g.enter key).1 =
      if g.limits.iterations < min (g.iterations + 1) countLimit then .iterationExceeded
      else if g.limits.depth ≤ g.depth then .depthExceeded
      else if g.isVisiting key then .cycle
      else .entered := by
  unfold enter
  dsimp only
  split
  · rfl
  · split
    · rfl
    · split
      · rename_i hvisiting
        exact (if_pos hvisiting).symm
      · rename_i hvisiting
        exact (if_neg hvisiting).symm

namespace Reflects

variable {limits : Limits} {past : List (Event κ)} {g : Guard κ}

theorem enter (h : Reflects limits past g) (key : κ) :
    Reflects limits (.asked key (g.enter key).1 :: past) (g.enter key).2 := by
  -- the count and the flag follow every answer, the keys and the depth only one of them
  have hiterations : (g.enter key).2.iterations =
      min (asks (.asked key (g.enter key).1 :: past)) countLimit := by
    rw [enter_iterations, h.iterations, asks_asked]
    omega
  have hexceeded : (g.enter key).2.exceeded = true ↔
      ∃ event ∈ recent (.asked key (g.enter key).1 :: past), event.isRefusal = true := by
    rw [enter_exceeded, Bool.or_eq_true, h.exceeded, recent_asked]
    simp only [List.mem_cons, exists_eq_or_imp]
    exact or_comm
  rcases g.enter_cases key with ⟨hanswer, hinside⟩ | hrefused
  · refine ⟨hinside.limits.trans h.limits, ?_, ?_, ?_, hiterations, fun other => ?_, hexceeded⟩
    · rw [hinside.depth, hinside.visiting, h.depth]
      rfl
    · rw [hinside.visiting]
      exact List.nodup_cons.mpr ⟨hinside.new, h.nodup⟩
    · rw [hinside.depth, hinside.limits]
      exact hinside.room
    · rw [hinside.visiting, hanswer, List.mem_cons, h.visiting, open_cons]
      constructor
      · rintro (rfl | hopen)
        · exact .inl rfl
        · exact .inr ⟨by simp, by simp, hopen⟩
      · rintro (hsame | ⟨_, _, hopen⟩)
        · exact .inl (Event.asked.inj hsame).1.symm
        · exact .inr hopen
  · have hkept : g.Kept (g.enter key).2 ∧ (g.enter key).1 ≠ .entered := by
      rcases hrefused with ⟨hanswer, _, _, hk⟩ | ⟨hanswer | hanswer, _, hk⟩ <;>
        exact ⟨hk, by rw [hanswer]; decide⟩
    obtain ⟨hk, hanswer⟩ := hkept
    refine ⟨hk.limits.trans h.limits, ?_, hk.visiting.symm ▸ h.nodup, ?_, hiterations,
      fun other => ?_,
      hexceeded⟩
    · rw [hk.depth, hk.visiting, h.depth]
    · rw [hk.depth, hk.limits]
      exact h.bound
    · rw [hk.visiting, h.visiting, open_asked hanswer]

theorem leave (h : Reflects limits past g) {key : κ} (hkey : g.isVisiting key = true) :
    Reflects limits (.left key :: past) (g.leave key) := by
  have hmem : key ∈ g.visiting := of_decide_eq_true hkey
  refine ⟨h.limits, ?_, h.nodup.erase key, ?_, ?_, fun other => ?_, ?_⟩
  · rw [Guard.leave, List.length_erase_of_mem hmem, h.depth]
  · exact Nat.le_trans (Nat.sub_le _ _) h.bound
  · rw [asks_left, ← h.iterations]
    rfl
  · rw [Guard.leave, h.nodup.mem_erase_iff, h.visiting, open_cons]
    constructor
    · rintro ⟨hne, hopen⟩
      exact .inr ⟨fun hleft => hne (Event.left.inj hleft).symm, by simp, hopen⟩
    · rintro (hasked | ⟨hleft, _, hopen⟩)
      · cases hasked
      · exact ⟨fun hsame => hleft (hsame ▸ rfl), hopen⟩
  · rw [Guard.leave, h.exceeded, recent_left]
    simp only [List.mem_cons, exists_eq_or_imp, Event.isRefusal, Bool.false_eq_true, false_or]

end Reflects

/-- The keys, the depth, the count and the flag of a guard agree with what has happened since the
last reset. -/
theorem Lived.reflects {limits : Limits} {past : List (Event κ)} {g : Guard κ}
    (h : Lived limits past g) :
    Reflects limits past g := by
  induction h with
  | start => exact .start limits
  | enter _ key ih => exact ih.enter key
  | leave _ hkey ih => exact ih.leave hkey
  | reset _ ih => exact ih.reset

/-- Under any limits, and whatever has happened to a guard: the depth is the number of keys being
visited and no larger than allowed, the count is that of the visits asked for since the last reset,
as far as it goes, the keys being visited are those that were entered and not left since, the flag
says whether a visit was refused at a limit since the last reset, and the next visit is answered by
the count, the depth and the keys, in this order. -/
theorem Lived.guard_reflects_past {limits : Limits} {past : List (Event κ)} {g : Guard κ}
    (h : Lived limits past g) :
    g.depth = g.visiting.length ∧ g.visiting.Nodup ∧ g.depth ≤ limits.depth ∧
    g.iterations = min (asks past) countLimit ∧
    (∀ key, g.isVisiting key = true ↔ Open past key) ∧
    (g.exceeded = true ↔ ∃ event ∈ recent past, event.isRefusal = true) ∧
    ∀ key, (g.enter key).1 =
      if limits.iterations < min (asks past + 1) countLimit then .iterationExceeded
      else if g.depth = limits.depth then .depthExceeded
      else if g.isVisiting key then .cycle
      else .entered := by
  have hr := h.reflects
  refine ⟨hr.depth, hr.nodup, hr.limits ▸ hr.bound, hr.iterations, fun key => ?_, hr.exceeded,
    fun key => ?_⟩
  · rw [← hr.visiting key]
    exact decide_eq_true_iff
  · have hcount : min (g.iterations + 1) countLimit = min (asks past + 1) countLimit := by
      rw [hr.iterations]
      omega
    have hdeep : limits.depth ≤ g.depth ↔ g.depth = limits.depth := by
      have hbound : g.depth ≤ limits.depth := hr.limits ▸ hr.bound
      omega
    simp only [enter_answer, hr.limits, hcount, hdeep]

/-- The latest first: seven is entered and forgotten, one, two and three follow, one of them in
vain, and one is left before two is. -/
def crowdedPast : List (Event Nat) :=
  [.asked 3 .entered, .asked 2 .cycle, .left 1, .asked 3 .depthExceeded, .asked 2 .entered,
    .asked 1 .entered, .reset, .asked 7 .entered]

def crowded : Guard Nat where
  limits := ⟨2, 5⟩
  visiting := [3, 2]
  depth := 2
  iterations := 5
  exceeded := true
  overrun := true

theorem lived_crowded : Lived ⟨2, 5⟩ crowdedPast crowded := by
  have hstart : Lived ⟨2, 5⟩ ([] : List (Event Nat)) (.start ⟨2, 5⟩) := .start
  have hforgotten := (hstart.enter 7).reset
  have hfull := ((hforgotten.enter 1).enter 2).enter 3
  have hleft := @Lived.leave _ _ _ _ _ hfull 1 rfl
  exact (hleft.enter 2).enter 3

theorem Lived.guard_reflects_past_crowded :
    Lived ⟨2, 5⟩ crowdedPast crowded ∧ crowded.depth = 2 ∧ asks crowdedPast = 5 ∧
      Open crowdedPast 2 ∧ ¬ Open crowdedPast 1 ∧ ¬ Open crowdedPast 7 ∧
      (∃ event ∈ recent crowdedPast, event.isRefusal = true) ∧
      (crowded.enter 2).1 = .iterationExceeded := by
  obtain ⟨_, _, _, _, hvisiting, hexceeded, hanswer⟩ := lived_crowded.guard_reflects_past
  refine ⟨lived_crowded, rfl, rfl, (hvisiting 2).mp rfl, ?_, ?_, hexceeded.mp rfl, hanswer 2⟩
  · exact fun hopen => absurd ((hvisiting 1).mpr hopen) Bool.false_ne_true
  · exact fun hopen => absurd ((hvisiting 7).mpr hopen) Bool.false_ne_true

end TypeCalculus.Guard
