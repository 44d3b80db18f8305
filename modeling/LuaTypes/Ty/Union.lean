import LuaTypes.Ty.Equality

/-!
Unions. Every union is made here: its members are flat, pairwise different in the order of first
addition, none is a sentinel, and there are at least two.
-/

namespace LuaTypes

/-- Members collected so far, and which sentinels were met on the way. -/
structure UnionBuilder where
  members : List Ty := []
  sawUnknown : Bool := false
  sawInvalid : Bool := false

namespace UnionBuilder

/-- A member equal to an earlier one is dropped. -/
def insert (members : List Ty) (ty : Ty) : List Ty :=
  if members.any (· == ty) then members else members ++ [ty]

/-- Adds a type: a union by its members, a sentinel by being remembered. -/
def add (b : UnionBuilder) : Ty → UnionBuilder
  | .unknown => { b with sawUnknown := true }
  | .invalid => { b with sawInvalid := true }
  | .union members => { b with members := members.foldl insert b.members }
  | ty => { b with members := insert b.members ty }

def isEmpty (b : UnionBuilder) : Bool := b.members.isEmpty

/-- The union of the members, none where there are none. -/
def type? (b : UnionBuilder) : Option Ty :=
  match b.members with
  | [] => none
  | [ty] => some ty
  | members => some (.union members)

/-- Without members the result is invalid if nothing but invalid types were added. -/
def type (b : UnionBuilder) : Ty :=
  b.type?.getD (if b.sawInvalid && !b.sawUnknown then .invalid else .unknown)

end UnionBuilder

namespace Ty

/-- The union of a list of types, unknown for the empty list. -/
def unionAll (types : List Ty) : Ty := (types.foldl UnionBuilder.add {}).type

/-- The union of two types. A sentinel gives way to any other type, and two sentinels are invalid
only if both are. -/
def join (a b : Ty) : Ty :=
  match a.isInvalid, b.isInvalid with
  | true, true => if a.isUnknown || b.isUnknown then .unknown else .invalid
  | true, false => b
  | false, true => a
  | false, false => if a == b then a else unionAll [a, b]

end Ty

end LuaTypes
