import LuaTypes.Infer.Answer

/-!
Sessions. Requests come one after another against one program; every request has a guard of its own,
and all of them share the memo of class details. Between requests the index may go out of service
and come back.
-/

namespace LuaTypes

structure Session where
  env : Env
  memo : ClassMemo := {}

inductive Command
  /-- A request for values of a node. -/
  | infer (node : NodeId) (pick : Pick)
  | setReady (ready : Bool)

namespace Session

def setReady (s : Session) (ready : Bool) : Session :=
  { s with env := { s.env with index := { s.env.index with ready } } }

/-- The answer to a request. -/
def answer (s : Session) (node : NodeId) (pick : Pick) : Ty :=
  (inferPick s.env node pick { memo := s.memo }).1

def perform (s : Session) : Command → Session
  | .infer node pick => { s with memo := (inferPick s.env node pick { memo := s.memo }).2.memo }
  | .setReady ready => s.setReady ready

/-- The session after some commands. -/
def after (s : Session) (commands : List Command) : Session := commands.foldl perform s

end Session

end LuaTypes
