import LuaTypes.Proofs.SimulatedNodes

/-!
Mirrored requests end with the same types: whatever one of them asks, the guard of the other lets
through or refuses as well.
-/

namespace LuaTypes.Simulation

variable {env : Env} {ix : Index} (S : Simulation env ix) {α β : Type} {φ : α → β}

/-- The results agree, and so do the states that are left, where both guards may have changed in
the same way. -/
def Agree (depth : Nat) (φ : α → β) (x : α × Request) (y : β × Request) : Prop :=
  y.1 = φ x.1 ∧ ∃ g, S.State (g, g) depth x.2 y.2

theorem isOff_rename (q : Query) : (q.rename S.ρ).isOff (env.withIndex ix) = q.isOff env := by
  cases q <;> rfl

theorem RunMaps.finish {answer answer' : Query → Infer Ty} {depth : Nat}
    (hanswer : ∀ q g s t, S.State (g, g) depth s t →
      S.Agree depth (Ty.rename S.ρ) (answer q s) (answer' (q.rename S.ρ) t))
    {g : Guard Key} {r : Run α} {r' : Run β} (h : S.RunMaps φ depth (g, g) r r') :
    S.Agree depth φ (r.finish answer) (r'.finish answer') := by
  generalize hguards : (g, g) = guards at h
  induction h generalizing g with
  | done hstate => exact ⟨rfl, g, hguards ▸ hstate⟩
  | @asks guards q s t resume resume' hstate _ ih =>
    obtain ⟨hty, g', hstate'⟩ := hanswer q g s t (hguards ▸ hstate)
    have := ih (g', g') (answer q s).1 _ _ hstate' rfl
    rwa [← hty] at this

theorem guarded_agree {g : Guard Key} {depth : Nat} {s t : Request} (h : S.State (g, g) depth s t)
    (key : Key) {x y : Infer Ty}
    (hxy : ∀ g s t, S.State (g, g) depth s t → S.Agree depth (Ty.rename S.ρ) (x s) (y t)) :
    S.Agree depth (Ty.rename S.ρ) (Infer.guarded key x s) (Infer.guarded key y t) := by
  rw [Infer.guarded_apply, Infer.guarded_apply, h.guard, h.guard']
  rcases g.enter key with ⟨admission, guard⟩
  have hentered : S.State (guard, guard) depth { s with guard } { t with guard } :=
    { h with guard := rfl, guard' := rfl }
  cases admission with
  | entered =>
    obtain ⟨hval, g', hstate⟩ := hxy _ _ _ hentered
    refine ⟨hval, g'.leave key, ?_⟩
    exact { hstate with
      guard := congrArg (Guard.leave · key) hstate.guard
      guard' := congrArg (Guard.leave · key) hstate.guard' }
  | _ => exact ⟨rfl, guard, hentered⟩

theorem answerWithin_agree (room : Nat) (q : Query) {g : Guard Key} {depth : Nat} {s t : Request}
    (h : S.State (g, g) depth s t) :
    S.Agree depth (Ty.rename S.ρ) (answerWithin env room q s)
      (answerWithin (env.withIndex ix) room (q.rename S.ρ) t) := by
  induction room generalizing q g s t with
  | zero =>
    simp only [answerWithin, S.isOff_rename, Query.rename_key]
    split
    · exact ⟨rfl, g, h⟩
    · exact S.guarded_agree h q.key fun g s t h => ⟨rfl, g, h⟩
  | succ room ih =>
    simp only [answerWithin, S.isOff_rename, Query.rename_key]
    split
    · exact ⟨rfl, g, h⟩
    · exact S.guarded_agree h q.key fun g s t h =>
        (S.answer_maps q depth (g, g) s t h).finish S fun q _ _ _ h => ih q h

theorem run_agree {x : Asking α} {y : Asking β} (hxy : S.asking.Maps φ x y) {g : Guard Key}
    {depth : Nat} {s t : Request} (h : S.State (g, g) depth s t) :
    S.Agree depth φ (x.run env s) (y.run (env.withIndex ix) t) :=
  (hxy depth (g, g) s t h).finish S fun q _ _ _ h => S.answerWithin_agree maxInferDepth q h

theorem inferPick_agree (node : NodeId) (pick : Pick) {g : Guard Key} {depth : Nat} {s t : Request}
    (h : S.State (g, g) depth s t) :
    S.Agree depth (Ty.rename S.ρ) (inferPick env node pick s)
      (inferPick (env.withIndex ix) node pick t) :=
  S.run_agree (S.ask_maps (.value node pick)) h

/-- New requests agree if their memos do. -/
theorem State.new {m m' : ClassMemo} (h : S.Memo m m') :
    S.State (.ofProfile .inference, .ofProfile .inference) 0 { memo := m } { memo := m' } where
  memo := h
  guard := rfl
  guard' := rfl
  chainDepth := rfl
  depth := rfl
  limit := rfl
  chains := fun name => by simp

end LuaTypes.Simulation
