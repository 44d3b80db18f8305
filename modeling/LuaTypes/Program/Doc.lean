import LuaTypes.Ty.Basic

/-!
Doc comments, read already: the types in them are type values.
-/

namespace LuaTypes

/-- The class that a comment declares. -/
structure DocClass where
  name : String
  details : ClassDetails := {}

structure Doc where
  class? : Option DocClass := none
  type? : Option Ty := none
  params : List Field := []
  /-- One type for each returned value. -/
  returns : List Ty := []
  vararg? : Option Ty := none
  typeParams : List TypeParam := []
  /-- Fields of the declared class. -/
  fields : List Field := []
  overloads : List Signature := []
  aliases : List Field := []

/-- The documented type of a parameter; of several the first counts. -/
def Doc.paramTy? (d : Doc) (name : String) : Option Ty :=
  (d.params.find? (·.name == name)).map (·.ty)

end LuaTypes
