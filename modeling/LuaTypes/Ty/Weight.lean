import LuaTypes.Ty.Basic

/-!
The class nodes that a type holds, at any depth.
-/

namespace LuaTypes

mutual

/-- The names of all class nodes. -/
def Ty.classNames : Ty → List String
  | .unknown | .invalid | .prim _ => []
  | .cls c => c.classNames
  | .union members => Ty.allClassNames members
  | .generic base args => base.classNames ++ Ty.allClassNames args
  | .func main overloads => main.classNames ++ Signature.allClassNames overloads
  | .array element => element.classNames
  | .tuple items => Ty.allClassNames items
termination_by structural ty => ty

def ClassTy.classNames : ClassTy → List String
  | ⟨name, _, _, .docTable fields, _⟩ => name :: Field.allClassNames fields
  | ⟨name, _, _, _, _⟩ => [name]
termination_by structural c => c

def Signature.classNames : Signature → List String
  | ⟨_, params, some vararg, ret, _⟩ =>
    Field.allClassNames params ++ vararg.classNames ++ ret.classNames
  | ⟨_, params, none, ret, _⟩ => Field.allClassNames params ++ ret.classNames
termination_by structural sig => sig

def Ty.allClassNames : List Ty → List String
  | [] => []
  | ty :: rest => ty.classNames ++ Ty.allClassNames rest
termination_by structural types => types

def Field.allClassNames : List Field → List String
  | [] => []
  | ⟨_, ty⟩ :: rest => ty.classNames ++ Field.allClassNames rest
termination_by structural fields => fields

def Signature.allClassNames : List Signature → List String
  | [] => []
  | sig :: rest => sig.classNames ++ Signature.allClassNames rest
termination_by structural sigs => sigs

end

/-- How many class nodes a type holds. -/
def Ty.classNodes (ty : Ty) : Nat := ty.classNames.length

end LuaTypes
