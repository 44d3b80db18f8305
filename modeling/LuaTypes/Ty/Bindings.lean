import LuaTypes.OrderedMap
import LuaTypes.Ty.Rewrite

/-!
Type parameters and what they are bound to. Substituting replaces every class node that is named
like a bound parameter.
-/

namespace LuaTypes

/-- Type parameter names with the types bound to them. -/
abbrev Bindings := OrderedMap Ty

def Bindings.rewriter (b : Bindings) : Rewriter Id where
  replace? c := b.get? c.name

def Bindings.apply (b : Bindings) (ty : Ty) : Ty := (ty.substitute b.rewriter).run

end LuaTypes
