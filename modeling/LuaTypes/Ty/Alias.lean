import LuaTypes.Class.Memo
import LuaTypes.Ty.Rewrite

/-!
Aliases. A class named like an alias, or whose declared other name is one, becomes the union of the
expanded target and the class itself. Each class name is expanded at most once, so that aliases
that name each other come to an end. Generic types are left alone.
-/

namespace LuaTypes

/-- The class names met so far, and the class memo. -/
structure Expansion where
  visited : List String := []
  memo : ClassMemo

/-- A computation that expands aliases. -/
abbrev Expanding := StateM Expansion

namespace Expanding

def read {α : Type} (act : Reading α) : Expanding α := fun s =>
  let (a, memo) := act.run s.memo
  (a, { s with memo })

/-- Notes a class name; false if it was met before. -/
def visit (name : String) : Expanding Bool := fun s =>
  if name ∈ s.visited then (false, s) else (true, { s with visited := name :: s.visited })

end Expanding

/-- The alias target that a class stands for: that of the alias named like it, else that of the
other name that it declares. Synthetic classes and doc tables stand for none. -/
def ClassTy.aliasTarget? (r : Resolver) (c : ClassTy) : Reading (Option Ty) := do
  if c.isGlobal || c.isAnonymous || c.isDocTable then return none
  match r.alias? c.name with
  | some target => return some target
  | none =>
    match ← c.alias? r with
    | some other => return if other = c.name then none else r.alias? other
    | none => return none

/-- Puts the expanded target of an alias beside the class that stands for it. -/
def aliasRewriter (r : Resolver) (expand : Ty → Expanding Ty) : Rewriter Expanding where
  replace? c := do
    if ← Expanding.visit c.name then
      match ← Expanding.read (c.aliasTarget? r) with
      | some target => return some ((← expand target).join (.cls c))
      | none => return some (.cls c)
    else return none
  entersGenerics := false

theorem aliasRewriter_enters (r r' : Resolver) (f g : Ty → Expanding Ty) :
    (aliasRewriter r f).entersGenerics = (aliasRewriter r' g).entersGenerics := by
  simp only [aliasRewriter]

/-- Expands the aliases of a type, where expansions may nest `n` deep. -/
def expandWithin (r : Resolver) : Nat → Ty → Expanding Ty
  | 0, ty => return ty
  | n + 1, ty => ty.substitute (aliasRewriter r (expandWithin r n))

/-- Expands the aliases of a type. Each nested expansion begins at a class node of an alias target
with a name not met before, so they nest no deeper than there are such nodes. -/
def expand (r : Resolver) (ty : Ty) : Expanding Ty := expandWithin r (r.aliasWeight + 2) ty

/-- Expands the aliases of a type, with no class met before. -/
def expandAliases (r : Resolver) (ty : Ty) : Reading Ty := fun memo =>
  let (ty, s) := (expand r ty).run { memo }
  (ty, s.memo)

end LuaTypes
