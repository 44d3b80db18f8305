import LuaTypes.Infer.Request

/-!
What doc comments say about the types of declarations.
-/

namespace LuaTypes

variable (env : Env)

/-- The class at its declaration. -/
def DocClass.ty (c : DocClass) : Ty := .cls (.declared c.name c.details)

/-- The type that the comment of a declaration gives: its class, else its type. -/
def declaredTy? (id : NodeId) : Infer (Option Ty) :=
  match env.program.doc? id with
  | none => return none
  | some doc =>
    match doc.class?, doc.type? with
    | some c, _ => return some c.ty
    | none, some ty => some <$> Infer.expand env ty
    | none, none => return none

/-- The type that a comment gives to a parameter. -/
def paramTy (doc? : Option Doc) (name : String) : Infer Ty :=
  match doc? >>= (·.paramTy? name) with
  | some ty => Infer.expand env ty
  | none => return .unknown

/-- The documented type of the further arguments of the function around a node. -/
def varargTy? (id : NodeId) : Infer (Option Ty) :=
  match env.program.enclosingFunction? id >>= env.program.functionDoc? >>= (·.vararg?) with
  | some ty => some <$> Infer.expand env ty
  | none => return none

end LuaTypes
