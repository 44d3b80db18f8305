import Mathlib.Data.List.Induction
import Mathlib.Tactic.SplitIfs
import Std.Data.HashSet.Lemmas
import LuaTypes.Guard

/-!
Runs of a guard. What is in progress, how deep it is, how much work was done and whether a limit was
hit can all be told from what a guard was asked and how it answered, as long as no key is left more
often than it was let in.
-/

namespace LuaTypes.Guard

/-- Of keys that all differ one is taken out. -/
theorem contains_eraseP {κ : Type} [BEq κ] [PartialEquivBEq κ] {keys : List κ}
    (h : keys.Pairwise fun a b => (a == b) = false) (key other : κ) :
    (keys.eraseP (key == ·)).contains other = (!(key == other) && keys.contains other) := by
  induction keys with
  | nil => simp
  | cons first rest ih =>
    obtain ⟨hfirst, hrest⟩ := List.pairwise_cons.mp h
    rw [List.contains_cons, List.eraseP_cons]
    cases hkey : key == first with
    | true =>
      have hsame : (key == other) = (first == other) := BEq.congr_left hkey
      rw [cond_true, hsame, BEq.comm (a := other)]
      cases hother : first == other with
      | false => rfl
      | true =>
        rw [← List.contains_congr hother]
        simpa [List.contains_eq_any_beq] using hfirst
    | false =>
      rw [cond_false, List.contains_cons, ih hrest]
      cases hother : key == other with
      | false => rfl
      | true => simp [← BEq.congr_left hother, hkey]

/-! Histories. -/

variable {κ : Type}

/-- What a guard is asked, and how it answers. -/
inductive Event (κ : Type)
  | attempt (key : κ) (answer : Admission)
  | left (key : κ)

namespace Event

def isAttempt : Event κ → Bool
  | attempt .. => true
  | left _ => false

/-- An attempt that a limit refuses. -/
def hitsLimit : Event κ → Bool
  | attempt _ answer => answer.isLimit
  | left _ => false

/-- The keys that are held afterwards. -/
def holding [BEq κ] (keys : List κ) : Event κ → List κ
  | attempt key .entered => key :: keys
  | attempt .. => keys
  | left key => keys.eraseP (key == ·)

end Event

/-- How often it was tried to enter. -/
def attempts (history : List (Event κ)) : Nat := history.countP (·.isAttempt)

theorem attempts_append (history : List (Event κ)) (e : Event κ) :
    attempts (history ++ [e]) = attempts history + if e.isAttempt then 1 else 0 := by
  rw [attempts, List.countP_append, List.countP_singleton]
  rfl

variable [BEq κ]

/-- The keys that were let in and not left since, the last one first. -/
def held (history : List (Event κ)) : List κ := history.foldl Event.holding []

theorem held_append (history : List (Event κ)) (e : Event κ) :
    held (history ++ [e]) = e.holding (held history) := by
  rw [held, List.foldl_append]
  rfl

variable [Hashable κ]

/-! Single attempts. -/

section

variable {g g' : Guard κ} {key : κ}

/-- The budget comes first, then the depth, and then the key. -/
theorem enter_fst (g : Guard κ) (key : κ) : (g.enter key).1 =
    if g.maxWork < min (g.work + 1) maxWord32 then .budgetExhausted
    else if g.maxDepth ≤ g.depth then .depthExceeded
    else if g.isInProgress key then .cycle
    else .entered := by
  simp only [enter, isInProgress, apply_ite Prod.fst]
  rfl

/-- How a guard lets a key in. -/
theorem enter_entered (henter : g.enter key = (.entered, g')) :
    min (g.work + 1) maxWord32 ≤ g.maxWork ∧ g.depth < g.maxDepth ∧ key ∉ g.inProgress ∧
      g' = { g with
        work := min (g.work + 1) maxWord32
        depth := g.depth + 1
        inProgress := g.inProgress.insert key } := by
  simp only [enter] at henter
  split at henter
  · simp at henter
  · split at henter
    · simp at henter
    · split at henter
      · simp at henter
      · rename_i hwork hdepth hkey
        simp only [Prod.mk.injEq, true_and] at henter
        exact ⟨Nat.not_lt.mp hwork, Nat.not_le.mp hdepth, by simpa using hkey, henter.symm⟩

/-- How a guard refuses a key. -/
theorem enter_refused {answer : Admission} (hanswer : answer ≠ .entered)
    (henter : g.enter key = (answer, g')) :
    g' = { g with
      work := min (g.work + 1) maxWord32
      hitLimit := g.hitLimit || answer.isLimit } := by
  simp only [enter] at henter
  split_ifs at henter
  all_goals obtain ⟨rfl, rfl⟩ := Prod.mk.inj henter
  · simp [Admission.isLimit]
  · simp [Admission.isLimit]
  · simp [Admission.isLimit]
  · exact absurd rfl hanswer

end

/-! Runs. -/

/-- The guard is new and then asked one thing after the other, and only keys are left that are
held. -/
inductive Runs (limit budget : Nat) : List (Event κ) → Guard κ → Prop
  | new : Runs limit budget [] (.new limit budget)
  | enter {history : List (Event κ)} {g : Guard κ} (key : κ) : Runs limit budget history g →
    Runs limit budget (history ++ [.attempt key (g.enter key).1]) (g.enter key).2
  | leave {history : List (Event κ)} {g : Guard κ} (key : κ) : Runs limit budget history g →
    (held history).contains key = true →
    Runs limit budget (history ++ [.left key]) (g.leave key)

/-- What a guard shows after a run. -/
structure Accounts (limit budget : Nat) (history : List (Event κ)) (g : Guard κ) : Prop where
  maxDepth : g.maxDepth = limit
  maxWork : g.maxWork = budget
  inProgress (key : κ) : g.isInProgress key = (held history).contains key
  distinct : (held history).Pairwise fun a b => (a == b) = false
  depth : g.depth = (held history).length
  size : g.inProgress.size = (held history).length
  bound : g.depth ≤ limit
  work : g.work = min (attempts history) maxWord32
  hitLimit : g.hitLimit = history.any (·.hitsLimit)

namespace Accounts

theorem new (limit budget : Nat) :
    Accounts limit budget [] (.new limit budget : Guard κ) where
  maxDepth := rfl
  maxWork := rfl
  inProgress := fun key => by simp [isInProgress, Guard.new, held]
  distinct := .nil
  depth := rfl
  size := rfl
  bound := Nat.zero_le _
  work := rfl
  hitLimit := rfl

variable {limit budget : Nat} {history : List (Event κ)} {g : Guard κ}

/-- How the next attempt is answered. -/
theorem answer (h : Accounts limit budget history g) (key : κ) : (g.enter key).1 =
    if budget < min (attempts history + 1) maxWord32 then .budgetExhausted
    else if (held history).length = limit then .depthExceeded
    else if (held history).contains key then .cycle
    else .entered := by
  have hwork : min (g.work + 1) maxWord32 = min (attempts history + 1) maxWord32 := by
    have hsofar := h.work
    omega
  have hdepth : g.maxDepth ≤ g.depth ↔ (held history).length = limit := by
    have hbound := h.bound
    rw [h.maxDepth, ← h.depth]
    omega
  rw [enter_fst, hwork, h.maxWork, h.inProgress]
  simp only [hdepth]

variable [EquivBEq κ] [LawfulHashable κ]

theorem enter (h : Accounts limit budget history g) (key : κ) :
    Accounts limit budget (history ++ [.attempt key (g.enter key).1]) (g.enter key).2 := by
  have hwork := h.work
  rcases henter : g.enter key with ⟨answer, after⟩
  by_cases hanswer : answer = .entered
  · subst hanswer
    obtain ⟨-, hdepth, hkey, rfl⟩ := enter_entered henter
    have hnew : (held history).contains key = false := by
      rw [← h.inProgress, isInProgress]
      simpa using hkey
    rw [h.maxDepth, h.depth] at hdepth
    have hheld : held (history ++ [.attempt key .entered]) = key :: held history := held_append ..
    exact {
      maxDepth := h.maxDepth
      maxWork := h.maxWork
      inProgress := fun other => by
        have hother := h.inProgress other
        simp only [isInProgress] at hother ⊢
        rw [hheld, Std.HashSet.contains_insert, hother, List.contains_cons, BEq.comm]
      distinct := by
        rw [hheld, List.pairwise_cons]
        exact ⟨by simpa [List.contains_eq_any_beq] using hnew, h.distinct⟩
      depth := by rw [hheld, List.length_cons, h.depth]
      size := by rw [hheld, List.length_cons, Std.HashSet.size_insert, if_neg hkey, h.size]
      bound := by
        rw [h.depth]
        exact hdepth
      work := by
        rw [attempts_append]
        simp only [Event.isAttempt, if_true]
        omega
      hitLimit := by simp [h.hitLimit, Event.hitsLimit, Admission.isLimit] }
  · obtain rfl := enter_refused hanswer henter
    have hheld : held (history ++ [.attempt key answer]) = held history := by
      rw [held_append]
      cases answer <;> first | rfl | exact absurd rfl hanswer
    exact {
      maxDepth := h.maxDepth
      maxWork := h.maxWork
      inProgress := fun other => by
        rw [hheld]
        exact h.inProgress other
      distinct := hheld ▸ h.distinct
      depth := hheld ▸ h.depth
      size := hheld ▸ h.size
      bound := h.bound
      work := by
        rw [attempts_append]
        simp only [Event.isAttempt, if_true]
        omega
      hitLimit := by simp [h.hitLimit, Event.hitsLimit] }

theorem leave (h : Accounts limit budget history g) {key : κ}
    (hkey : (held history).contains key = true) :
    Accounts limit budget (history ++ [.left key]) (g.leave key) := by
  have hheld : held (history ++ [.left key]) = (held history).eraseP (key == ·) := held_append ..
  have hlength : ((held history).eraseP (key == ·)).length = (held history).length - 1 := by
    obtain ⟨own, hown, hsame⟩ := List.contains_iff_exists_mem_beq.mp hkey
    exact List.length_eraseP_of_mem hown hsame
  have hin : key ∈ g.inProgress := by
    rw [← Std.HashSet.contains_iff_mem]
    exact (h.inProgress key).trans hkey
  exact {
    maxDepth := h.maxDepth
    maxWork := h.maxWork
    inProgress := fun other => by
      have hother := h.inProgress other
      simp only [isInProgress] at hother ⊢
      rw [hheld, contains_eraseP h.distinct, Guard.leave, Std.HashSet.contains_erase, hother]
    distinct := hheld ▸ h.distinct.sublist List.eraseP_sublist
    depth := by rw [hheld, hlength, Guard.leave, h.depth]
    size := by rw [hheld, hlength, Guard.leave, Std.HashSet.size_erase, if_pos hin, h.size]
    bound := Nat.le_trans (Nat.sub_le _ 1) h.bound
    work := by
      rw [attempts_append]
      exact h.work
    hitLimit := by
      rw [List.any_append, ← h.hitLimit]
      simp [Event.hitsLimit, Guard.leave] }

end Accounts

namespace Runs

variable {limit budget : Nat} {history : List (Event κ)} {g : Guard κ}

/-- How a run came to its last event. -/
theorem concat_cases {e : Event κ} (h : Runs limit budget (history ++ [e]) g) :
    ∃ before, Runs limit budget history before ∧
      ((∃ key, e = .attempt key (before.enter key).1 ∧ g = (before.enter key).2) ∨
        ∃ key, e = .left key ∧ g = before.leave key) := by
  generalize hall : history ++ [e] = all at h
  cases h with
  | new => simp at hall
  | enter key h =>
    obtain ⟨rfl, he⟩ := List.append_inj' hall rfl
    exact ⟨_, h, .inl ⟨key, List.singleton_inj.mp he, rfl⟩⟩
  | leave key h =>
    obtain ⟨rfl, he⟩ := List.append_inj' hall rfl
    exact ⟨_, h, .inr ⟨key, List.singleton_inj.mp he, rfl⟩⟩

variable [EquivBEq κ] [LawfulHashable κ]

theorem accounts (h : Runs limit budget history g) : Accounts limit budget history g := by
  induction h with
  | new => exact .new _ _
  | enter key _ ih => exact ih.enter key
  | leave _ _ hkey ih => exact ih.leave hkey

/-- A run goes on with an attempt and the answer that its history gives. -/
theorem attempt (h : Runs limit budget history g) (key : κ) {answer : Admission}
    (hanswer : (if budget < min (attempts history + 1) maxWord32 then .budgetExhausted
      else if (held history).length = limit then .depthExceeded
      else if (held history).contains key then .cycle
      else .entered) = answer) :
    ∃ after, Runs limit budget (history ++ [.attempt key answer]) after := by
  rw [← h.accounts.answer] at hanswer
  exact ⟨_, hanswer ▸ h.enter key⟩

/-- A key that was let in and not left since is held, and the others are held that would be if it
had not been let in. -/
theorem held_without {key : κ} {before since : List (Event κ)}
    (h : Runs limit budget (before ++ .attempt key .entered :: since) g)
    (hstays : ∀ other, .left other ∈ since → (key == other) = false) :
    (held (before ++ .attempt key .entered :: since)).contains key = true ∧
      (held (before ++ .attempt key .entered :: since)).eraseP (key == ·)
        = held (before ++ since) := by
  induction since using List.reverseRecOn generalizing g with
  | nil =>
    rw [held_append, List.append_nil]
    simp [Event.holding]
  | append_singleton since e ih =>
    have hall : before ++ .attempt key .entered :: (since ++ [e])
        = (before ++ .attempt key .entered :: since) ++ [e] := by simp
    rw [hall] at h ⊢
    rw [← List.append_assoc before, held_append, held_append]
    obtain ⟨g', hrun, hlast⟩ := h.concat_cases
    obtain ⟨hkey, hothers⟩ :=
      ih hrun fun other hother => hstays other (List.mem_append_left _ hother)
    rw [← hothers]
    generalize before ++ .attempt key .entered :: since = history at *
    rcases hlast with ⟨other, rfl, -⟩ | ⟨other, rfl, -⟩
    · rcases henter : g'.enter other with ⟨answer, after⟩
      cases answer with
      | entered =>
        -- What is let in is not held, and so it is another key.
        have hnew : (key == other) = false := by
          obtain ⟨-, -, hnew, -⟩ := enter_entered henter
          rw [Bool.eq_false_iff]
          intro hsame
          rw [List.contains_congr hsame, ← hrun.accounts.inProgress] at hkey
          exact hnew (Std.HashSet.contains_iff_mem.mp hkey)
        simp [Event.holding, hnew, hkey]
      | cycle | depthExceeded | budgetExhausted => exact ⟨hkey, rfl⟩
    · have hdiffers := hstays other (by simp)
      refine ⟨?_, List.eraseP_comm fun k _ => ?_⟩
      · change ((held history).eraseP (other == ·)).contains key = true
        rw [contains_eraseP hrun.accounts.distinct, hkey, BEq.comm, hdiffers]
        rfl
      · rw [← not_and_or]
        rintro ⟨hother, hsame⟩
        rw [BEq.congr_left hsame, BEq.comm, hother] at hdiffers
        cases hdiffers

/-- After every step of a run in which only keys are left that are held: the keys in progress are
the held ones, as many as the guard is deep and never more than the limit; the work is the number of
attempts, as far as a counter goes; and a limit is noted once it has refused an attempt. An attempt
fails for want of budget, else because the depth is at the limit, else because its key is held, and
only one that succeeds changes what is held. To leave a key makes what is held what it would be if
the key had not been let in. -/
theorem accounting (h : Runs limit budget history g) :
    Accounts limit budget history g ∧
    (g.hitLimit = true ↔
      ∃ key answer, .attempt key answer ∈ history ∧ answer.isLimit = true) ∧
    (∀ key,
      let answer := (g.enter key).1
      let after := (g.enter key).2
      answer = (if budget < min (attempts history + 1) maxWord32 then .budgetExhausted
        else if (held history).length = limit then .depthExceeded
        else if (held history).contains key then .cycle
        else .entered) ∧
      (answer ≠ .entered →
        (∀ other, after.isInProgress other = g.isInProgress other) ∧ after.depth = g.depth) ∧
      (answer = .entered →
        (∀ other, after.isInProgress other = (key == other || g.isInProgress other)) ∧
          after.depth = g.depth + 1)) ∧
    ∀ key before since, history = before ++ .attempt key .entered :: since →
      (∀ other, .left other ∈ since → (key == other) = false) →
      g.isInProgress key = true ∧
      (∀ other, (g.leave key).isInProgress other = (held (before ++ since)).contains other) ∧
      (g.leave key).depth = (held (before ++ since)).length := by
  have haccounts := h.accounts
  refine ⟨haccounts, ?_, fun key => ⟨haccounts.answer key, fun hrefused => ?_, fun hentered => ?_⟩,
    ?_⟩
  · rw [haccounts.hitLimit, List.any_eq_true]
    constructor
    · rintro ⟨e, he, hlimit⟩
      cases e with
      | attempt key answer => exact ⟨key, answer, he, hlimit⟩
      | left key => cases hlimit
    · rintro ⟨key, answer, he, hlimit⟩
      exact ⟨_, he, hlimit⟩
  · have henter : g.enter key = ((g.enter key).1, (g.enter key).2) := rfl
    have hafter := enter_refused hrefused henter
    rw [hafter]
    exact ⟨fun other => rfl, rfl⟩
  · have henter : g.enter key = (.entered, (g.enter key).2) := Prod.ext hentered rfl
    obtain ⟨-, -, -, hafter⟩ := enter_entered henter
    rw [hafter]
    exact ⟨fun other => Std.HashSet.contains_insert, rfl⟩
  · rintro key before since rfl hstays
    obtain ⟨hkey, hothers⟩ := h.held_without hstays
    have hleft := haccounts.leave hkey
    have hheld := held_append (before ++ .attempt key .entered :: since) (.left key)
    rw [Event.holding, hothers] at hheld
    refine ⟨(haccounts.inProgress key).trans hkey, fun other => ?_, ?_⟩
    · rw [hleft.inProgress, hheld]
    · rw [hleft.depth, hheld]

/-- The second key meets its own first entry, and the third one the limit at first. -/
theorem accounting_interleaved :
    let history : List (Event Nat) := [.attempt 1 .entered, .attempt 2 .entered,
      .attempt 3 .depthExceeded, .left 1, .attempt 2 .cycle, .attempt 3 .entered]
    ∃ g, Runs 2 5 history g ∧ g.depth = 2 ∧ g.work = 5 ∧ g.hitLimit = true ∧
      (g.enter 4).1 = .budgetExhausted ∧ (g.leave 2).depth = 1 ∧
      ∀ other, (g.leave 2).isInProgress other = [3].contains other := by
  intro history
  obtain ⟨_, h⟩ := (Runs.new : Runs 2 5 [] (.new 2 5 : Guard Nat)).attempt 1 rfl
  obtain ⟨_, h⟩ := h.attempt 2 rfl
  obtain ⟨_, h⟩ := h.attempt 3 rfl
  obtain ⟨_, h⟩ := (h.leave 1 rfl).attempt 2 rfl
  obtain ⟨g, h⟩ := h.attempt 3 rfl
  have hrun : Runs 2 5 history g := h
  obtain ⟨haccounts, hlimit, hanswers, hleaves⟩ := hrun.accounting
  obtain ⟨-, hothers, hdepth⟩ := hleaves 2 [.attempt 1 .entered]
    [.attempt 3 .depthExceeded, .left 1, .attempt 2 .cycle, .attempt 3 .entered] rfl (by simp)
  refine ⟨g, hrun, haccounts.depth, haccounts.work, ?_, (hanswers 4).1, hdepth, hothers⟩
  exact hlimit.mpr ⟨3, .depthExceeded, by simp [history], rfl⟩

end Runs

end LuaTypes.Guard
