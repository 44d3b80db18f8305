/-!
Computations that mirror each other. A lifting says when one computation gives the image of what
another gives, where both may have effects; it is kept by everything that is built with `do`.
-/

namespace LuaTypes

/-- When a computation gives the image of the result of another, under a map of results. -/
structure Lifting (m n : Type → Type) [Monad m] [Monad n] where
  Maps {α β : Type} (φ : α → β) (x : m α) (y : n β) : Prop
  pure {α β : Type} (φ : α → β) (a : α) : Maps φ (Pure.pure a) (Pure.pure (φ a))
  bind {α β γ δ : Type} {φ : α → β} {ψ : γ → δ} {x : m α} {y : n β} {f : α → m γ} {g : β → n δ} :
    Maps φ x y → (∀ a, Maps ψ (f a) (g (φ a))) → Maps ψ (x >>= f) (y >>= g)

namespace Lifting

variable {m n : Type → Type} [Monad m] [Monad n] (L : Lifting m n) {α β γ δ : Type}

theorem foldlM {φ : γ → δ} (h : α → β) {f : γ → α → m γ} {g : δ → β → n δ} (as : List α)
    (hf : ∀ c, ∀ a ∈ as, L.Maps φ (f c a) (g (φ c) (h a))) (c : γ) :
    L.Maps φ (as.foldlM f c) ((as.map h).foldlM g (φ c)) := by
  induction as generalizing c with
  | nil => exact L.pure φ c
  | cons a as ih =>
    rw [List.map_cons, List.foldlM_cons, List.foldlM_cons]
    refine L.bind (hf c a List.mem_cons_self) fun d => ?_
    exact ih (fun e b hb => hf e b (List.mem_cons_of_mem a hb)) d

theorem forM (h : α → β) {f : α → m Unit} {g : β → n Unit} (as : List α)
    (hf : ∀ a ∈ as, L.Maps id (f a) (g (h a))) : L.Maps id (as.forM f) ((as.map h).forM g) := by
  induction as with
  | nil => exact L.pure id ()
  | cons a as ih =>
    exact L.bind (hf a List.mem_cons_self) fun _ => ih fun b hb => hf b (List.mem_cons_of_mem a hb)

variable [LawfulMonad m] [LawfulMonad n]

theorem map {φ : α → β} {ψ : γ → δ} {x : m α} {y : n β} {f : α → γ} {g : β → δ}
    (hx : L.Maps φ x y) (hf : ∀ a, ψ (f a) = g (φ a)) : L.Maps ψ (f <$> x) (g <$> y) := by
  rw [map_eq_pure_bind, map_eq_pure_bind]
  refine L.bind hx fun a => ?_
  rw [← hf a]
  exact L.pure ψ (f a)

theorem mapM {φ : γ → δ} (h : α → β) {f : α → m γ} {g : β → n δ} (as : List α)
    (hf : ∀ a ∈ as, L.Maps φ (f a) (g (h a))) :
    L.Maps (List.map φ) (as.mapM f) ((as.map h).mapM g) := by
  induction as with
  | nil => exact L.pure (List.map φ) []
  | cons a as ih =>
    rw [List.map_cons, List.mapM_cons, List.mapM_cons]
    refine L.bind (hf a List.mem_cons_self) fun c => ?_
    refine L.bind (ih fun b hb => hf b (List.mem_cons_of_mem a hb)) fun cs => ?_
    exact L.pure (List.map φ) (c :: cs)

end Lifting

namespace Lifting

variable {m n : Type → Type} [Monad m] [Monad n] (L : Lifting m n)

/-- Whatever mirrors each other under every one of several liftings. -/
def all {ι : Type} (L : ι → Lifting m n) : Lifting m n where
  Maps φ x y := ∀ i, (L i).Maps φ x y
  pure φ a := fun i => (L i).pure φ a
  bind hx hf := fun i => (L i).bind (hx i) fun a => hf a i

/-- Plain values. -/
def values : Lifting Id Id where
  Maps φ x y := y = φ x
  pure _ _ := rfl
  bind {_ _ _ _ _ _ x y _ _} hx hf := by
    obtain rfl : y = _ := hx
    exact hf x

/-- Computations with a state on top, where one state is the image of the other. -/
def state {σ τ : Type} (χ : σ → τ) : Lifting (StateT σ m) (StateT τ n) where
  Maps φ x y := ∀ s, L.Maps (Prod.map φ χ) (x s) (y (χ s))
  pure φ a := fun s => L.pure (Prod.map φ χ) (a, s)
  bind hx hf := fun s => L.bind (hx s) fun (a, s) => hf a s

section

variable {σ τ : Type} (χ : σ → τ)

theorem get_maps : (L.state χ).Maps χ get get := fun s => L.pure (Prod.map χ χ) (s, s)

theorem set_maps (s : σ) : (L.state χ).Maps id (set s) (set (χ s)) :=
  fun _ => L.pure (Prod.map id χ) ((), s)

theorem lift_maps {α β : Type} {φ : α → β} {x : m α} {y : n β} (h : L.Maps φ x y) :
    (L.state χ).Maps φ (x : StateT σ m α) (y : StateT τ n β) :=
  fun s => L.bind h fun a => L.pure (Prod.map φ χ) (a, s)

/-- Computations with a state of their own, which is forgotten at the end. -/
theorem run'_maps [LawfulMonad m] [LawfulMonad n] {α β : Type} {φ : α → β} {x : StateT σ m α}
    {y : StateT τ n β} (h : (L.state χ).Maps φ x y) (s : σ) :
    L.Maps φ (x.run' s) (y.run' (χ s)) :=
  L.map (h s) fun _ => rfl

end

/-- Computations on related states, which leave related states. -/
def ofStates {σ τ : Type} (R : σ → τ → Prop) : Lifting (StateM σ) (StateM τ) where
  Maps φ x y := ∀ s t, R s t → (y t).1 = φ (x s).1 ∧ R (x s).2 (y t).2
  pure _ _ := fun _ _ h => ⟨rfl, h⟩
  bind {_ _ _ _ φ ψ x y f g} hx hf := fun s t h => by
    obtain ⟨hval, hstate⟩ := hx s t h
    have := hf (x s).1 (x s).2 (y t).2 hstate
    rw [← hval] at this
    exact this

end Lifting

end LuaTypes
