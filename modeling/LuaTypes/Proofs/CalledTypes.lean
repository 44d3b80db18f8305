import LuaTypes.Infer.Call
import LuaTypes.Proofs.Folds

/-!
The signatures that answer a call are those that take as many arguments as are given. Here the
number that they are to take is taken for granted, whatever the arguments are.
-/

namespace LuaTypes

variable (env : Env)

/-- What one member of the callee's type adds to the type of a call, where signatures are to take
`count` arguments. -/
def Call.memberTyFor (call : Call) (count : Nat) (pick : Pick) (ret : Ty) (member : Ty) :
    WithArgs Ty :=
  match member with
  | .func main overloads =>
    (matchingSignatures main overloads count).foldlM
      (fun ret sig => return ret.join (← call.returnTy pick sig)) ret
  | _ => call.memberTy env pick ret member

/-- What the members of a callee's type return. -/
def calleeRetFor (call : Call) (count : Nat) (pick : Pick) (calleeTy : Ty) : Asking Ty :=
  if env.cancelled then return .unknown
  else (calleeTy.each.foldlM (call.memberTyFor env count pick) .unknown).run' none

/-- The type of a call that is no import. -/
def calledTy (callee : NodeId) (args : List NodeId) (count : Nat) (pick : Pick) : Asking Ty := do
  let ret ← calleeRetFor env (callOf env callee args) count pick (← valueTy callee)
  if !ret.isInvalid then return ret
  else (constructed? env callee).elim (return ret) fun object => return ret.join (← valueTy object)

/-- How many arguments signatures are to take does not matter if the same ones take them. -/
theorem calleeRetFor_congr {call : Call} {count count' : Nat} {calleeTy : Ty}
    (h : ∀ main overloads, .func main overloads ∈ calleeTy.each →
      matchingSignatures main overloads count = matchingSignatures main overloads count')
    (pick : Pick) :
    calleeRetFor env call count pick calleeTy = calleeRetFor env call count' pick calleeTy := by
  have hmember (ret : Ty) : ∀ member ∈ calleeTy.each,
      call.memberTyFor env count pick ret member = call.memberTyFor env count' pick ret member := by
    intro member hmem
    cases member with
    | func main overloads => simp only [Call.memberTyFor, h main overloads hmem]
    | _ => rfl
  rw [calleeRetFor, calleeRetFor, foldlM_ext calleeTy.each hmember]

theorem Call.memberTyFor_length (call : Call) (pick : Pick) (ret member : Ty) :
    call.memberTyFor env call.args.length pick ret member = call.memberTy env pick ret member := by
  cases member <;> rfl

theorem calleeRetFor_length (call : Call) (pick : Pick) (calleeTy : Ty) :
    calleeRetFor env call call.args.length pick calleeTy = calleeRet env call pick calleeTy := by
  have hmember : call.memberTyFor env call.args.length pick = call.memberTy env pick :=
    funext fun ret => funext fun member => call.memberTyFor_length env pick ret member
  rw [calleeRetFor, calleeRet, hmember]

theorem callOf_args (callee : NodeId) (args : List NodeId) :
    (callOf env callee args).args = args := by
  unfold callOf
  split <;> rfl

/-- Signatures are to take as many arguments as there are. -/
theorem callTy_eq_calledTy (callee : NodeId) (args : List NodeId) (pick : Pick) :
    callTy env callee args pick =
      if (env.program.usedName? callee).any env.settings.isRequireLike then importTy env args
      else calledTy env callee args args.length pick := by
  have hret := calleeRetFor_length env (callOf env callee args) pick
  rw [callOf_args] at hret
  rw [callTy, calledTy]
  simp only [hret]
  cases constructed? env callee <;> rfl

end LuaTypes
