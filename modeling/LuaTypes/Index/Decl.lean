import LuaTypes.MemberChain
import LuaTypes.Program.Node

/-!
Declarations found in a program: classes, aliases and members.
-/

namespace LuaTypes

structure ClassDecl where
  name : String
  file : FileId
  /-- The statement whose comment declares the class. -/
  node : NodeId
  stdLib : Bool
  details : ClassDetails

structure AliasDecl where
  name : String
  file : FileId
  target : Ty

/-- What declares a member. -/
inductive MemberOrigin
  /-- A method, declared on a prefix with a dot or a colon. -/
  | method (node : NodeId)
  /-- A global function. -/
  | funcDef (node : NodeId)
  /-- A field of a documented class. -/
  | docField (ty : Ty)
  /-- A field of an inline doc table. -/
  | docTableField (ty : Ty)
  /-- A named field of a table literal. -/
  | tableField (node : NodeId)
  /-- The target of an assignment to a field. -/
  | assign (target : NodeId)
  /-- The target of an assignment to a global. -/
  | globalAssign (target : NodeId)

structure MemberDecl where
  name : String
  className : String
  origin : MemberOrigin
  file : FileId
  offset : Nat
  stdLib : Bool
  /-- Declared through the very variable that the class is declared on. -/
  authoritative : Bool

namespace MemberDecl

/-- How strongly the declaration claims its name. -/
def worth (d : MemberDecl) : Nat :=
  match d.origin with
  | .method _ | .funcDef _ => worthMethod
  | .docField _ | .docTableField _ => worthDocField
  | .tableField _ => worthTableField
  | .assign _ | .globalAssign _ => worthAssign

/-- Doc fields, methods and authoritative declarations define a class; others extend it. -/
def isDefining (d : MemberDecl) : Bool :=
  d.authoritative || match d.origin with
    | .docField _ | .method _ => true
    | _ => false

instance : ChainMember MemberDecl := ⟨name, worth, file, offset⟩

end MemberDecl

end LuaTypes
