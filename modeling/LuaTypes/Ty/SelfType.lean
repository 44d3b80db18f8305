import LuaTypes.Ty.Rewrite

/-!
The self type. A class node named `self` becomes the type of the receiver, which is computed at the
first such node and never again.
-/

namespace LuaTypes

/-- The receiver's type, once it is known. -/
abbrev WithReceiver (m : Type → Type) := StateT (Option Ty) m

variable {m : Type → Type} [Monad m]

/-- The type of the receiver, computed if it is not known. -/
def receiverTy (compute : m Ty) : WithReceiver m Ty := do
  match ← get with
  | some ty => return ty
  | none =>
    let ty ← compute
    set (some ty)
    return ty

def selfRewriter (compute : m Ty) : Rewriter (WithReceiver m) where
  replace? c := if c.name = selfWord then some <$> receiverTy compute else return none

/-- Replaces the self type by the type of a receiver. -/
def Ty.withSelf (compute : m Ty) (ty : Ty) : m Ty :=
  (ty.substitute (selfRewriter compute)).run' none

end LuaTypes
