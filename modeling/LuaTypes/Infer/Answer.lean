import LuaTypes.Infer.Node

/-!
Answering questions. Every question that comes up on the way to an answer is answered under the
guard, so a question nests at most as deep as the guard lets it, and every request comes to an end.
-/

namespace LuaTypes

variable (env : Env)

/-- What is done to answer a question. -/
def Query.answer : Query → Asking Ty
  | .value id pick => nodeTy env id pick
  | .field cls name use => fieldTy env cls name use
  | .globalDecls name => globalDeclsTy env name
  | .listed _ values index => listedTy values index
  | .exported _ returned => valueTy returned

/-- A cancelled request asks for no more values of nodes. -/
def Query.isOff (q : Query) : Bool := env.cancelled && q matches .value ..

/-- Answers a question under the guard, where questions may nest `room` deep. -/
def answerWithin (room : Nat) (q : Query) : Infer Ty :=
  if q.isOff env then return .unknown
  else
    Infer.guarded q.key <|
      match room with
      | 0 => return .unknown
      | room + 1 => fun s => (q.answer env s).finish (answerWithin room)

/-- Runs a computation and answers its questions. The guard refuses the question that would nest one
deeper than its limit, so there is always room for an answer that it lets through. -/
def Asking.run {α : Type} (x : Asking α) : Infer α := fun s =>
  (x s).finish (answerWithin env maxInferDepth)

/-- The type of the values of a node that are picked. -/
def inferPick (node : NodeId) (pick : Pick) : Infer Ty := (ask (.value node pick)).run env

/-- The type of a node, that of its first value if it has several. -/
def infer (node : NodeId) : Infer Ty := inferPick env node (.nth 0)

/-- The type of the value of a node at a position. -/
def inferAt (node : NodeId) (index : Nat) : Infer Ty := inferPick env node (.nth index)

/-- The type of a node, with all its values. -/
def inferTuple (node : NodeId) : Infer Ty := inferPick env node .all

/-- The type of a global. -/
def globalType (name : String) : Infer Ty := (globalTy env name).run env

/-- The type of the value that a file returns. -/
def moduleType (file : FileId) : Infer Ty := (moduleTy env file).run env

/-- The type of a function-like node. -/
def functionType (func : NodeId) : Infer Ty := (functionTy env func).run env

/-- The type that the declaration of a member gives to it. -/
def memberType (d : MemberDecl) : Infer Ty := (memberTy env d).run env

/-- The type of a member looked up on a type. -/
def lookupMember (ty : Ty) (name : String) (use : Use) : Infer Ty :=
  (lookupTy env ty name use).run env

/-- The type of a member of a class. -/
def fieldType (c : ClassTy) (name : String) (use : Use) : Infer Ty :=
  (fieldTy env c name use).run env

end LuaTypes
