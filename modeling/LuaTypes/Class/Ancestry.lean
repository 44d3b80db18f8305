import LuaTypes.Class.Memo
import LuaTypes.Flow
import LuaTypes.Limits
import LuaTypes.Ty.Union

/-!
Superclasses. The walk over them goes depth first in the order of declaration, sees each class at
most once, and stops growing at the walk limit.
-/

namespace LuaTypes

namespace Resolver

/-- The type that a superclass name stands for: a builtin type, else the declared class. -/
def superTy? (r : Resolver) (name : String) : Option Ty :=
  builtin? name <|> (r.details? name).map fun d => .cls (.declared name d)

/-- It is a primitive type, or a class at its declaration, which for a builtin one is empty. -/
theorem superTy?_cases {r : Resolver} {name : String} {ty : Ty} (h : r.superTy? name = some ty) :
    (∃ p, ty = .prim p) ∨ ∃ details, ty = .cls (.declared name details) ∧
      (details = {} ∨ r.details? name = some details) := by
  rw [superTy?] at h
  cases hbuiltin : builtin? name with
  | some found =>
    simp only [hbuiltin] at h
    obtain rfl : found = ty := Option.some_inj.mp h
    rw [builtin?] at hbuiltin
    split at hbuiltin
    · exact .inl ⟨_, (Option.some_inj.mp hbuiltin).symm⟩
    · split at hbuiltin
      · rename_i hname
        obtain rfl := hname
        exact .inr ⟨{}, (Option.some_inj.mp hbuiltin).symm, .inl rfl⟩
      · cases hbuiltin
  | none =>
    simp only [hbuiltin] at h
    obtain ⟨details, hdetails, hcls⟩ := Option.map_eq_some_iff.mp h
    exact .inr ⟨details, hcls.symm, .inr hdetails⟩

/-- The superclass type of a class with these details: one class, a union, or none. -/
def superOf? (r : Resolver) (d : ClassDetails) : Option Ty :=
  ((d.supers.filterMap r.superTy?).foldl UnionBuilder.add {}).type?

/-- The direct superclasses of a class with these details. -/
def superClasses (r : Resolver) (d : ClassDetails) : List ClassTy :=
  (r.superOf? d).elim [] Ty.classes

end Resolver

namespace ClassTy

def super? (r : Resolver) (c : ClassTy) : Reading (Option Ty) :=
  return r.superOf? (← c.readDetails r)

/-- The details of a class made at its declaration. -/
def declaredDetails (c : ClassTy) : ClassDetails :=
  match c.details with
  | .known d => d
  | .deferred _ => {}

end ClassTy

/-- The classes met on a walk, where `pending` are the classes still to look at, in order, and
`seen` the names met before. -/
def ancestorsFrom (r : Resolver) (seen : List String) : List ClassTy → List ClassTy
  | [] => []
  | c :: pending =>
    if maxSuperclassWalk ≤ seen.length then []
    else if c.name ∈ seen then ancestorsFrom r seen pending
    else c :: ancestorsFrom r (c.name :: seen) (r.superClasses c.declaredDetails ++ pending)
termination_by pending => (maxSuperclassWalk - seen.length, pending.length)
decreasing_by
  all_goals simp_wf
  · exact .right _ (by omega)
  · exact .left _ _ (by omega)

/-- Every proper superclass, in the order of the walk. -/
def ClassTy.ancestors (r : Resolver) (c : ClassTy) : Reading (List ClassTy) :=
  return ancestorsFrom r [c.name] (r.superClasses (← c.readDetails r))

/-- Offers the superclasses to a visitor in the order of the walk, until it stops or the walk is
cancelled. -/
def ClassTy.visitAncestors {m : Type → Type} [Monad m] (r : Resolver) (c : ClassTy)
    (cancelled : m Bool) (visitor : ClassTy → m Flow) : StateT ClassMemo m Flow := fun memo =>
  let (ancestors, memo) := (c.ancestors r).run memo
  return (← offerUntil cancelled visitor ancestors, memo)

end LuaTypes
