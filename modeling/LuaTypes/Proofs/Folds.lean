import LuaTypes.Infer.Request

/-!
Folds with effects. Where the effects do not depend on what is folded, they can all come first.
-/

namespace LuaTypes

variable {m : Type → Type} [Monad m] [LawfulMonad m] {α β γ : Type}

omit [LawfulMonad m] in
theorem foldlM_ext {f g : γ → α → m γ} (items : List α) (h : ∀ c, ∀ a ∈ items, f c a = g c a)
    (c : γ) : items.foldlM f c = items.foldlM g c := by
  induction items generalizing c with
  | nil => rfl
  | cons a rest ih =>
    rw [List.foldlM_cons, List.foldlM_cons, h c a List.mem_cons_self]
    exact bind_congr fun d => ih (fun e b hb => h e b (List.mem_cons_of_mem a hb)) d

theorem foldlM_eq_mapM (f : α → m β) (g : γ → β → γ) (items : List α) (c : γ) :
    items.foldlM (fun c a => do return g c (← f a)) c = (do
      return (← items.mapM f).foldl g c) := by
  induction items generalizing c with
  | nil => simp
  | cons a rest ih =>
    simp only [List.foldlM_cons, List.mapM_cons, bind_assoc, pure_bind, ih, List.foldl_cons]

theorem foldlM_foldl_eq_mapM (f : α → m (List β)) (g : γ → β → γ) (items : List α) (c : γ) :
    items.foldlM (fun c a => do return (← f a).foldl g c) c = (do
      return (← items.mapM f).flatten.foldl g c) := by
  induction items generalizing c with
  | nil => simp
  | cons a rest ih =>
    simp only [List.foldlM_cons, List.mapM_cons, bind_assoc, pure_bind, ih, List.flatten_cons,
      List.foldl_append]

/-- The members of a union are found out one after the other, and then joined. -/
theorem Asking.unionOf_eq {env : Env} (hcancelled : env.cancelled = false) (f : α → Asking Ty)
    (items : List α) : Asking.unionOf env f items = (do
      return (← items.mapM f).foldl Ty.join .unknown) := by
  rw [unionOf, hcancelled, if_neg Bool.false_ne_true]
  exact foldlM_eq_mapM f Ty.join items .unknown

end LuaTypes
