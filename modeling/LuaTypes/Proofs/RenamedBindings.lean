import LuaTypes.Proofs.RenamedTypes
import LuaTypes.Ty.Unify

/-!
Type arguments and their inference commute with renaming cells.
-/

namespace LuaTypes

namespace OrderedMap

variable {α β : Type} (f : α → β)

/-- Changes every value. -/
def map (m : OrderedMap α) : OrderedMap β := ⟨m.entries.map fun (key, value) => (key, f value)⟩

@[simp] theorem map_empty : map f {} = {} := rfl

@[simp] theorem get?_map (m : OrderedMap α) (key : String) :
    (m.map f).get? key = (m.get? key).map f := by
  obtain ⟨entries⟩ := m
  simp only [map, get?]
  induction entries with
  | nil => rfl
  | cons e entries ih =>
    obtain ⟨k, value⟩ := e
    simp only [List.map_cons, List.lookup_cons]
    split
    · rfl
    · exact ih

theorem map_insert (m : OrderedMap α) (key : String) (value : α) :
    (m.insert key value).map f = (m.map f).insert key (f value) := by
  obtain ⟨entries⟩ := m
  simp only [map, insert, mk.injEq]
  induction entries with
  | nil => rfl
  | cons e entries ih =>
    by_cases h : e.1 = key
    · simp [insertInto, h]
    · simp [insertInto, h, ih]

theorem map_foldl_insert {γ : Type} (key : γ → String) (value : γ → α) (items : List γ)
    (m : OrderedMap α) :
    (items.foldl (fun m x => m.insert (key x) (value x)) m).map f
      = items.foldl (fun m x => m.insert (key x) (f (value x))) (m.map f) := by
  induction items generalizing m with
  | nil => rfl
  | cons x items ih => rw [List.foldl_cons, List.foldl_cons, ih, map_insert]

theorem map_modify (m : OrderedMap α) (key : String) {g : α → α} {h : β → β}
    (hgh : ∀ a, f (g a) = h (f a)) : (m.modify key g).map f = (m.map f).modify key h := by
  simp only [modify, get?_map]
  cases m.get? key with
  | none => rfl
  | some value => simp only [Option.map_some, map_insert, hgh]

theorem map_filter (m : OrderedMap α) {p : α → Bool} {q : β → Bool} (hpq : ∀ a, p a = q (f a)) :
    (m.filter p).map f = (m.map f).filter q := by
  obtain ⟨entries⟩ := m
  have h : (fun e : String × α => p e.2) = (fun e => q e.2) ∘ fun (key, value) => (key, f value) :=
    funext fun e => hpq e.2
  simp only [map, filter, h, List.filter_map]

end OrderedMap

variable (ρ : CellMap)

namespace Bindings

/-- The bindings with the cells of their types renamed. -/
abbrev rename (b : Bindings) : Bindings := b.map (Ty.rename ρ)

@[simp] theorem apply_rename (b : Bindings) (ty : Ty) :
    (b.rename ρ).apply (ty.rename ρ) = (b.apply ty).rename ρ :=
  Lifting.values.substitute ρ (f := b.rewriter) (g := (b.rename ρ).rewriter) rfl ty fun c _ => by
    change (b.rename ρ).get? (c.rename ρ).name = _
    rw [OrderedMap.get?_map, ClassTy.rename_name]
    rfl

end Bindings

namespace Unifier

def rename (u : Unifier) : Unifier := { u with bindings := u.bindings.rename ρ }

/-- Unifiers that are the same but for their cells. -/
def lifting : Lifting (StateM Unifier) (StateM Unifier) :=
  .ofStates fun u v => v = u.rename ρ

theorem bind_maps (name : String) (actual : Ty) :
    (lifting ρ).Maps id (bind name actual) (bind name (actual.rename ρ)) := by
  rintro u _ rfl
  refine ⟨rfl, ?_⟩
  change ({ (u.rename ρ) with bindings := _ } : Unifier) = Unifier.rename ρ { u with bindings := _ }
  rw [rename, rename, Bindings.rename, Bindings.rename,
    OrderedMap.map_modify (h := (·.join (actual.rename ρ))) (Ty.rename ρ) u.bindings name
      fun ty => (Ty.join_rename ρ ty actual).symm]

theorem enter_maps : (lifting ρ).Maps id enter enter := by
  rintro u _ rfl
  exact ⟨rfl, rfl⟩

theorem leave_maps : (lifting ρ).Maps id leave leave := by
  rintro u _ rfl
  exact ⟨rfl, rfl⟩

theorem unifyParts_maps (L : Lifting (StateM Unifier) (StateM Unifier))
    (hbind : ∀ name actual, L.Maps id (bind name actual) (bind name (actual.rename ρ)))
    {unify unify' : Ty → Ty → StateM Unifier Unit}
    (h : ∀ actual formal,
      L.Maps id (unify actual formal) (unify' (actual.rename ρ) (formal.rename ρ)))
    (actual formal : Ty) :
    L.Maps id (unifyParts unify actual formal)
      (unifyParts unify' (actual.rename ρ) (formal.rename ρ)) := by
  have hnone : L.Maps id (pure ()) (pure ()) := L.pure id ()
  cases formal with
  | cls c =>
    simp only [Ty.rename_cls, unifyParts, ClassTy.rename_name]
    exact hbind c.name actual
  | union members =>
    simp only [Ty.rename_union, unifyParts]
    exact L.forM (Ty.rename ρ) members fun member _ => h actual member
  | array formalElement =>
    simp only [Ty.rename_array, unifyParts, Ty.each_rename]
    refine L.forM (Ty.rename ρ) actual.each fun member _ => ?_
    cases member with
    | array element => exact h element formalElement
    | _ => simpa using hnone
  | generic formalBase formalArgs =>
    simp only [Ty.rename_generic, unifyParts, Ty.each_rename]
    refine L.forM (Ty.rename ρ) actual.each fun member _ => ?_
    cases member with
    | generic base args =>
      simp only [Ty.rename_generic, List.zipIdx_map]
      refine L.bind (h base formalBase) fun _ => ?_
      refine L.forM (Prod.map (Ty.rename ρ) id) args.zipIdx fun arg _ => ?_
      simp only [Prod.map, id, typeArg_rename]
      exact h arg.1 (typeArg formalArgs arg.2)
    | _ => simpa using hnone
  | func formalMain overloads =>
    simp only [Ty.rename_func, unifyParts, Ty.each_rename]
    refine L.forM (Ty.rename ρ) actual.each fun member _ => ?_
    cases member with
    | func main overloads =>
      simp only [Ty.rename_func, Signature.rename_ret]
      exact h main.ret formalMain.ret
    | _ => simpa using hnone
  | _ => simpa [unifyParts] using hnone

theorem unifyWithin_maps (room : Nat) (actual formal : Ty) :
    (lifting ρ).Maps id (unifyWithin room actual formal)
      (unifyWithin room (actual.rename ρ) (formal.rename ρ)) := by
  induction room generalizing actual formal with
  | zero => exact (lifting ρ).pure id ()
  | succ room ih =>
    simp only [unifyWithin, Ty.isInvalid_rename]
    split
    · refine (lifting ρ).bind (enter_maps ρ) fun ok => ?_
      cases ok with
      | false => exact (lifting ρ).pure id ()
      | true =>
        exact (lifting ρ).bind (unifyParts_maps ρ _ (bind_maps ρ) ih actual formal) fun _ => leave_maps ρ
    · exact (lifting ρ).pure id ()

theorem ofSignature_rename (sig : Signature) :
    ofSignature (sig.rename ρ) = (ofSignature sig).rename ρ := by
  simp only [ofSignature, rename, Bindings.rename, Signature.rename_typeParams,
    OrderedMap.map_foldl_insert]
  rfl

end Unifier

namespace Signature

theorem pairs_rename (sig : Signature) (args : List Ty) :
    (sig.rename ρ).pairs (args.map (Ty.rename ρ))
      = (sig.pairs args).map (Prod.map (Ty.rename ρ) (Ty.rename ρ)) := by
  simp only [pairs, rename_colon, rename_params, rename_vararg, List.length_map, List.map_append,
    ← List.map_drop, ← apply_ite (List.map (Ty.rename ρ)), List.zipWith_map, List.map_zipWith]
  cases sig.vararg? <;> simp [Function.comp_def]

theorem unifier_rename (sig : Signature) (args : List Ty) :
    (sig.rename ρ).unifier (args.map (Ty.rename ρ)) = (sig.unifier args).rename ρ := by
  have hall := (Unifier.lifting ρ).forM (Prod.map (Ty.rename ρ) (Ty.rename ρ)) (sig.pairs args)
    (f := fun pair => Unifier.unify pair.1 pair.2) (g := fun pair => Unifier.unify pair.1 pair.2)
    fun pair _ => Unifier.unifyWithin_maps ρ (maxSubstDepth + 1) pair.1 pair.2
  rw [← pairs_rename] at hall
  exact (hall _ _ (Unifier.ofSignature_rename ρ sig)).2

end Signature

end LuaTypes
