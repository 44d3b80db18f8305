import LuaTypes.Limits
import LuaTypes.Ty.Union

/-!
Rewriting types. A rewriter says what becomes of a class node; everything else is rebuilt part by
part, and a rewritten union is formed anew from its rewritten members. Subtrees below the nesting
limit stay as they are.
-/

namespace LuaTypes

structure Rewriter (m : Type → Type) where
  /-- What takes the place of a class node; none keeps it. -/
  replace? : ClassTy → m (Option Ty)
  /-- Whether the parts of a generic type are rewritten too. -/
  entersGenerics : Bool := true

/-- Rewrites a type, where `room` levels of nesting are left. -/
def Ty.rewrite {m : Type → Type} [Monad m] (f : Rewriter m) (room : Nat) (ty : Ty) : m Ty :=
  match room with
  | 0 => return ty
  | room + 1 =>
    match ty with
    | .unknown | .invalid | .prim _ => return ty
    | .cls c => return (← f.replace? c).getD ty
    | .union members => return unionAll (← members.mapM (rewrite f room))
    | .generic base args =>
      if f.entersGenerics then return .generic (← base.rewrite f room) (← args.mapM (rewrite f room))
      else return ty
    | .func main overloads =>
      return .func (← main.mapTypesM (rewrite f room))
        (← overloads.mapM (·.mapTypesM (rewrite f room)))
    | .array element => return .array (← element.rewrite f room)
    | .tuple items => return .tuple (← items.mapM (rewrite f room))

/-- Rewrites a type down to the nesting limit. -/
def Ty.substitute {m : Type → Type} [Monad m] (f : Rewriter m) (ty : Ty) : m Ty :=
  ty.rewrite f maxSubstDepth

end LuaTypes
