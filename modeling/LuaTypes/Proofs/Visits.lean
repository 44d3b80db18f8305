import LuaTypes.Flow

/-!
Visits that end early. A visitor that never stops is called on every item; one that stops is called
on the items up to the one that it stops at, and the visit says so.
-/

namespace LuaTypes

section

variable {m : Type → Type} [Monad m] {α β : Type}

theorem offer_map (visitor : β → m Flow) (f : α → β) (items : List α) :
    offer visitor (items.map f) = offer (fun a => visitor (f a)) items := by
  induction items with
  | nil => rfl
  | cons a rest ih => simp only [List.map_cons, offer, ih]

variable [LawfulMonad m]

theorem offer_append (visitor : α → m Flow) (items more : List α) :
    offer visitor (items ++ more) = (do
      match ← offer visitor items with
      | .stop => return .stop
      | .next => offer visitor more) := by
  induction items with
  | nil => simp [offer]
  | cons a rest ih =>
    simp only [List.cons_append, offer, bind_assoc]
    refine bind_congr fun flow => ?_
    cases flow with
    | stop => simp
    | next => exact ih

/-- A visit that nothing calls off goes through all of the items. -/
theorem offerUntil_pure_false (visitor : α → m Flow) (items : List α) :
    offerUntil (pure false) visitor items = offer visitor items := by
  induction items with
  | nil => rfl
  | cons a rest ih =>
    simp only [offerUntil, offer, pure_bind, Bool.false_eq_true, if_false]
    refine bind_congr fun flow => ?_
    cases flow with
    | stop => rfl
    | next => exact ih

end

variable {σ α : Type} {visitor : α → StateM σ Flow}

/-- The visitor goes on after each of the items, and its calls on them lead from one state to
another. -/
inductive GoesOn (visitor : α → StateM σ Flow) : List α → σ → σ → Prop
  | nil (s : σ) : GoesOn visitor [] s s
  | cons {a : α} {rest : List α} {s s' s'' : σ} :
    (visitor a).run s = (.next, s') → GoesOn visitor rest s' s'' →
      GoesOn visitor (a :: rest) s s''

/-- The visitor goes on after each of the items but the last, where it stops. -/
inductive StopsAfter (visitor : α → StateM σ Flow) : List α → σ → σ → Prop
  | last {seen : List α} {a : α} {s s' s'' : σ} :
    GoesOn visitor seen s s' → (visitor a).run s' = (.stop, s'') →
      StopsAfter visitor (seen ++ [a]) s s''

variable {items seen rest : List α} {s s' : σ}

theorem GoesOn.offer_append (h : GoesOn visitor seen s s') (rest : List α) :
    (offer visitor (seen ++ rest)).run s = (offer visitor rest).run s' := by
  induction h with
  | nil => rfl
  | cons hnext _ ih =>
    rw [List.cons_append, offer, StateT.run_bind, hnext]
    exact ih

theorem GoesOn.offer (h : GoesOn visitor items s s') :
    (offer visitor items).run s = (.next, s') := by
  have hall := h.offer_append []
  rwa [List.append_nil] at hall

theorem StopsAfter.offer (h : StopsAfter visitor seen s s') (rest : List α) :
    (LuaTypes.offer visitor (seen ++ rest)).run s = (.stop, s') := by
  obtain ⟨hgoes, hstop⟩ := h
  rw [List.append_assoc, hgoes.offer_append, List.singleton_append, LuaTypes.offer, StateT.run_bind,
    hstop]
  rfl

/-- Every visitor either goes on after all of the items or stops at one of them. -/
theorem goesOn_or_stopsAfter (visitor : α → StateM σ Flow) (items : List α) (s : σ) :
    (∃ s', GoesOn visitor items s s') ∨
      ∃ seen rest s', items = seen ++ rest ∧ StopsAfter visitor seen s s' := by
  induction items generalizing s with
  | nil => exact .inl ⟨s, .nil s⟩
  | cons a items ih =>
    rcases hcall : (visitor a).run s with ⟨_ | _, after⟩
    · rcases ih after with ⟨s', hgoes⟩ | ⟨seen, rest, s', rfl, hstops⟩
      · exact .inl ⟨s', .cons hcall hgoes⟩
      · obtain ⟨hgoes, hstop⟩ := hstops
        exact .inr ⟨a :: _, rest, s', rfl, .last (.cons hcall hgoes) hstop⟩
    · exact .inr ⟨[a], items, after, rfl, .last (.nil s) hcall⟩

end LuaTypes
