import LuaTypes.Class.Ancestry

/-!
The subtype relation. A sentinel fits everywhere, the universal table takes every class and every
array, and an empty table literal is taken for an array.
-/

namespace LuaTypes

/-- The class has the target among its proper superclasses. -/
def ClassTy.inherits (r : Resolver) (c target : ClassTy) : Reading Bool := do
  let ancestors ← c.ancestors r
  return !r.cancelled && ancestors.any (· == target)

mutual

/-- Superclasses are read only as far as the answer needs them. -/
def Ty.subtype (r : Resolver) (a b : Ty) : Reading Bool :=
  if a == b || a.isInvalid || b.isInvalid then return true
  else match a, b with
    | .union members, b => Ty.allSubtype r members b
    | a, .union members => Ty.subtypeAny r a members
    | .generic base _, b => base.subtype r b
    | .cls c, .cls target =>
      if target.isUniversalTable then return true else c.inherits r target
    | .array _, .cls target => return target.isUniversalTable
    | .cls c, .array _ => return (c.origin matches .literal _ _ 0)
    | .cls c, .generic base _ => (Ty.cls c).subtype r base
    | .array x, .array y => x.subtype r y
    | .func .., .func .. => return true
    | _, _ => return false
termination_by sizeOf a + sizeOf b

/-- Every type of a list is a subtype. -/
def Ty.allSubtype (r : Resolver) : List Ty → Ty → Reading Bool
  | [], _ => return true
  | a :: rest, b => do if ← a.subtype r b then Ty.allSubtype r rest b else return false
termination_by as b => sizeOf as + sizeOf b

/-- Some type of a list is a supertype. -/
def Ty.subtypeAny (r : Resolver) (a : Ty) : List Ty → Reading Bool
  | [] => return false
  | b :: rest => do if ← a.subtype r b then return true else Ty.subtypeAny r a rest
termination_by bs => sizeOf a + sizeOf bs

end

end LuaTypes
