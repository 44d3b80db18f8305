import LuaTypes.Infer.Answer

/-!
Properties of results. A keeping says when a computation ensures a property of its result, where it
may have effects; it is kept by everything that is built with `do`.

For requests, a discipline says what may be asked, what an answer to a question is like, and what
holds of the state on the way. A computation follows it if it asks only what may be asked and keeps
the state right, as long as it is answered right; if the answer to every question follows it, then
every request does.
-/

namespace LuaTypes

structure Keeping (m : Type → Type) [Monad m] where
  Ensures {α : Type} (P : α → Prop) (x : m α) : Prop
  pure {α : Type} {P : α → Prop} {a : α} : P a → Ensures P (Pure.pure a)
  bind {α β : Type} {P : α → Prop} {Q : β → Prop} {x : m α} {f : α → m β} :
    Ensures P x → (∀ a, P a → Ensures Q (f a)) → Ensures Q (x >>= f)

namespace Keeping

section

variable {m : Type → Type} [Monad m] (K : Keeping m) {α β : Type} {P : α → Prop} {Q : β → Prop}

theorem foldlM {f : β → α → m β} (as : List α)
    (hf : ∀ b, Q b → ∀ a ∈ as, K.Ensures Q (f b a)) {b : β} (hb : Q b) :
    K.Ensures Q (as.foldlM f b) := by
  induction as generalizing b with
  | nil => exact K.pure hb
  | cons a as ih =>
    rw [List.foldlM_cons]
    apply K.bind (hf b hb a List.mem_cons_self)
    intro c hc
    exact ih (fun d hd a' ha' => hf d hd a' (List.mem_cons_of_mem a ha')) hc

theorem forM {P : Unit → Prop} (hP : P ()) {f : α → m Unit} (as : List α)
    (hf : ∀ a ∈ as, K.Ensures P (f a)) : K.Ensures P (as.forM f) := by
  induction as with
  | nil => exact K.pure hP
  | cons a as ih =>
    apply K.bind (hf a List.mem_cons_self)
    intro _ _
    exact ih fun b hb => hf b (List.mem_cons_of_mem a hb)

variable [LawfulMonad m]

theorem map {x : m α} {f : α → β} (hx : K.Ensures P x) (hf : ∀ a, P a → Q (f a)) :
    K.Ensures Q (f <$> x) := by
  rw [map_eq_pure_bind]
  exact K.bind hx fun a ha => K.pure (hf a ha)

theorem imp {P' : α → Prop} {x : m α} (hx : K.Ensures P x) (himp : ∀ a, P a → P' a) :
    K.Ensures P' x := by
  rw [← bind_pure x]
  exact K.bind hx fun a ha => K.pure (himp a ha)

theorem mapM {f : α → m β} (as : List α) (hf : ∀ a ∈ as, K.Ensures Q (f a)) :
    K.Ensures (fun bs => ∀ b ∈ bs, Q b) (as.mapM f) := by
  induction as with
  | nil => exact K.pure nofun
  | cons a as ih =>
    rw [List.mapM_cons]
    apply K.bind (hf a List.mem_cons_self)
    intro b hb
    apply K.bind (ih fun a' ha' => hf a' (List.mem_cons_of_mem a ha'))
    intro bs hbs
    exact K.pure (List.forall_mem_cons.mpr ⟨hb, hbs⟩)

end

/-- Plain values. -/
def values : Keeping Id where
  Ensures P x := P x
  pure h := h
  bind hx hf := hf _ hx

section

variable {m : Type → Type} [Monad m] (K : Keeping m) {σ α : Type} (I : σ → Prop)

/-- Computations with a state on top, of which something holds throughout. -/
def state : Keeping (StateT σ m) where
  Ensures {α} P x := ∀ s, I s → K.Ensures (fun r : α × σ => P r.1 ∧ I r.2) (x s)
  pure h := fun _ hs => K.pure ⟨h, hs⟩
  bind hx hf := fun s hs => K.bind (hx s hs) fun r hr => hf r.1 hr.1 r.2 hr.2

theorem get_ensures : (K.state I).Ensures I get := fun _ hs => K.pure ⟨hs, hs⟩

theorem set_ensures {s : σ} (hs : I s) : (K.state I).Ensures (fun _ => True) (set s) :=
  fun _ _ => K.pure ⟨trivial, hs⟩

theorem lift_ensures {P : α → Prop} {x : m α} (h : K.Ensures P x) :
    (K.state I).Ensures P (x : StateT σ m α) :=
  fun _ hs => K.bind h fun _ ha => K.pure ⟨ha, hs⟩

theorem run'_ensures [LawfulMonad m] {P : α → Prop} {x : StateT σ m α}
    (h : (K.state I).Ensures P x) {s : σ} (hs : I s) : K.Ensures P (x.run' s) :=
  K.map (h s hs) fun _ hr => hr.1

end

end Keeping

/-! Requests. -/

structure Discipline where
  Asked (q : Query) : Prop
  Answered (q : Query) (ty : Ty) : Prop
  State (s : Request) : Prop
  /-- A question that is refused is answered right. -/
  answered_unknown (q : Query) : Answered q .unknown
  state_guard {s : Request} (guard : Guard Key) : State s → State { s with guard }

/-- A run that follows a discipline to a result with a property. -/
inductive Run.Follows {α : Type} (D : Discipline) (P : α → Prop) : Run α → Prop
  | done {a : α} {s : Request} : P a → D.State s → Follows D P (.done a s)
  | asks {q : Query} {s : Request} {resume : Ty → Request → Run α} :
    D.Asked q → D.State s →
    (∀ ty s, D.Answered q ty → D.State s → Follows D P (resume ty s)) →
    Follows D P (.asks q s resume)

namespace Discipline

variable (D : Discipline) {env : Env} {α β : Type} {P : α → Prop} {Q : β → Prop}

/-- Computations that ask nothing. -/
def infer : Keeping Infer := Keeping.values.state D.State

/-- Computations that ask. -/
def asking : Keeping Asking where
  Ensures P x := ∀ s, D.State s → (x s).Follows D P
  pure h := fun _ hs => .done h hs
  bind {_ _ P Q x f} hx hf := fun s hs => by
    have hbind {r : Run _} (hr : r.Follows D P) : (r.bind f).Follows D Q := by
      induction hr with
      | done ha hs => exact hf _ ha _ hs
      | asks hq hs _ ih => exact .asks hq hs ih
    exact hbind (hx s hs)

theorem ofInfer {x : Infer α} (h : D.infer.Ensures P x) : D.asking.Ensures P (x : Asking α) := by
  intro s hs
  exact .done (h s hs).1 (h s hs).2

theorem ask {q : Query} (h : D.Asked q) : D.asking.Ensures (D.Answered q) (ask q) :=
  fun _ hs => .asks h hs fun _ _ hty hs => .done hty hs

theorem unionOf {P : Ty → Prop} (hunknown : P .unknown) {f : α → Asking Ty} {items : List α}
    (hf : ∀ ty, P ty → ∀ a ∈ items, D.asking.Ensures (fun found => P (ty.join found)) (f a)) :
    D.asking.Ensures P (Asking.unionOf env f items) := by
  rw [Asking.unionOf]
  split
  · exact D.asking.pure hunknown
  · refine D.asking.foldlM items (fun ty hty a ha => ?_) hunknown
    exact D.asking.bind (hf ty hty a ha) fun _ hfound => D.asking.pure hfound

/-- What holds of a result and of the state that is left. -/
def Meets (P : α → Prop) (r : α × Request) : Prop := P r.1 ∧ D.State r.2

theorem finish {answer : Query → Infer Ty}
    (hanswer : ∀ q s, D.Asked q → D.State s → D.Meets (D.Answered q) (answer q s)) {r : Run α}
    (h : r.Follows D P) : D.Meets P (r.finish answer) := by
  induction h with
  | done ha hs => exact ⟨ha, hs⟩
  | asks hq hs _ ih => exact ih _ _ (hanswer _ _ hq hs).1 (hanswer _ _ hq hs).2

theorem guarded {key : Key} {answer : Infer Ty} {q : Query}
    (h : ∀ s, D.State s → D.Meets (D.Answered q) (answer s)) {s : Request} (hs : D.State s) :
    D.Meets (D.Answered q) (Infer.guarded key answer s) := by
  rw [Infer.guarded_apply]
  rcases s.guard.enter key with ⟨admission, guard⟩
  cases admission with
  | entered =>
    have hmeets := h _ (D.state_guard guard hs)
    exact ⟨hmeets.1, D.state_guard _ hmeets.2⟩
  | _ => exact ⟨D.answered_unknown q, D.state_guard guard hs⟩

/-- Every question that may be asked is answered right, however deep questions may nest. -/
theorem answerWithin (h : ∀ q, D.Asked q → D.asking.Ensures (D.Answered q) (q.answer env))
    (room : Nat) {q : Query} (hq : D.Asked q) {s : Request} (hs : D.State s) :
    D.Meets (D.Answered q) (answerWithin env room q s) := by
  induction room generalizing q s with
  | zero =>
    rw [LuaTypes.answerWithin]
    split
    · exact ⟨D.answered_unknown q, hs⟩
    · exact D.guarded (fun _ hs => ⟨D.answered_unknown q, hs⟩) hs
  | succ room ih =>
    rw [LuaTypes.answerWithin]
    split
    · exact ⟨D.answered_unknown q, hs⟩
    · exact D.guarded (fun s hs => D.finish (fun _ _ hq hs => ih hq hs) (h q hq s hs)) hs

/-- The discipline that everything follows. -/
def free : Discipline where
  Asked _ := True
  Answered _ _ := True
  State _ := True
  answered_unknown _ := trivial
  state_guard _ _ := trivial

theorem free_ensures (x : Asking α) : free.asking.Ensures (fun _ => True) x := by
  intro s _
  generalize x s = r
  induction r with
  | done a s => exact .done trivial trivial
  | asks q s resume ih => exact .asks trivial trivial fun ty s _ _ => ih ty s

end Discipline

end LuaTypes
