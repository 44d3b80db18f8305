import LuaTypes.Infer.Member
import LuaTypes.Ty.SelfType
import LuaTypes.Ty.Unify

/-!
Types of calls. Every signature that takes as many arguments as are given contributes its return
type, the main signature if there is none; type parameters are bound from the arguments, and the
self type is the type of the receiver.
-/

namespace LuaTypes

variable (env : Env)

/-- The object that a member is called on, and whether it is called with a colon. -/
structure CallReceiver where
  object : NodeId
  colon : Bool

/-- A call: its receiver, if it has one, and its arguments. -/
structure Call where
  receiver? : Option CallReceiver
  args : List NodeId

/-- The type of the receiver, if it is called with a colon. -/
def Call.receiverTypes (call : Call) : Asking (List Ty) :=
  match call.receiver? with
  | some ⟨object, true⟩ => List.singleton <$> valueTy object
  | _ => return []

/-- The types of the arguments, before them that of the receiver if it is called with a colon. -/
def Call.argTypes (call : Call) : Asking (List Ty) := do
  return (← call.receiverTypes) ++ (← call.args.mapM valueTy)

/-- The argument types, once they are known. -/
abbrev WithArgs := StateT (Option (List Ty)) Asking

/-- The types of the arguments, found out at most once. -/
def Call.argTypesOnce (call : Call) : WithArgs (List Ty) := do
  match ← get with
  | some types => return types
  | none =>
    let types ← call.argTypes
    set (some types)
    return types

/-- What a signature returns before the self type is put in: its type parameters take the types
bound to them. -/
def Call.boundRet (call : Call) (sig : Signature) : WithArgs Ty := do
  if sig.isGeneric then
    let types ← call.argTypesOnce
    let bindings? ← (Infer.read (sig.bindArgs? types) : Infer (Option Bindings))
    return bindings?.elim sig.ret (·.apply sig.ret)
  else return sig.ret

/-- What a signature returns for a call. -/
def Call.returnTy (call : Call) (pick : Pick) (sig : Signature) : WithArgs Ty := do
  let ret ← call.boundRet sig
  match call.receiver? with
  | some ⟨object, _⟩ => return pick.of (← (ret.withSelf (valueTy object) : Asking Ty))
  | none => return pick.of ret

/-- The signatures that answer a call with a number of arguments. -/
def matchingSignatures (main : Signature) (overloads : List Signature) (count : Nat) :
    List Signature :=
  match (main :: overloads).filter (·.params.length == count) with
  | [] => [main]
  | sigs => sigs

/-- What one member of the callee's type adds to the type of a call. A class that is called stands
for itself, unless it is the synthetic class of a global. -/
def Call.memberTy (call : Call) (pick : Pick) (ret : Ty) (member : Ty) : WithArgs Ty :=
  match member with
  | .func main overloads =>
    (matchingSignatures main overloads call.args.length).foldlM
      (fun ret sig => return ret.join (← call.returnTy pick sig)) ret
  | .cls c =>
    return if !c.isGlobal || (env.index.findClass? c.name).isSome then ret.join member else ret
  | _ => return ret

/-- The type of the value that a file returns: the first value of the last return statement of its
block that has any. -/
def moduleTy (file : FileId) : Asking Ty :=
  let returned := fun stmt => match env.program.node? stmt with
    | some (.ret (value :: _)) => some value
    | _ => none
  match env.program.file? file >>= fun f => env.program.node? f.root with
  | some (.block stmts) =>
    match stmts.reverse.findSome? returned with
    | some value => ask (.exported file value)
    | none => return .unknown
  | _ => return .unknown

/-- The type of an import: that of the file that the path means. -/
def importTy (args : List NodeId) : Asking Ty :=
  match args.head? >>= env.program.node? >>= (·.stringValue?) >>= env.resolveModule? with
  | some file => moduleTy env file
  | none => return .unknown

/-- The object that a constructor is called on. -/
def constructed? (callee : NodeId) : Option NodeId :=
  match env.program.node? callee with
  | some (.index object (.dot name)) | some (.index object (.colon name)) =>
    if env.settings.isConstructor name then some object else none
  | _ => none

/-- A call as its parts say: the receiver is the object of a callee that is an index. -/
def callOf (callee : NodeId) (args : List NodeId) : Call :=
  match env.program.node? callee with
  | some (.index object key) => ⟨some ⟨object, key matches .colon _⟩, args⟩
  | _ => ⟨none, args⟩

/-- What the members of a callee's type return. -/
def calleeRet (call : Call) (pick : Pick) (calleeTy : Ty) : Asking Ty :=
  if env.cancelled then return .unknown
  else (calleeTy.each.foldlM (call.memberTy env pick) .unknown).run' none

/-- The type of a call. A constructor that returns nothing gives the type that it is called on. -/
def callTy (callee : NodeId) (args : List NodeId) (pick : Pick) : Asking Ty := do
  if (env.program.usedName? callee).any env.settings.isRequireLike then importTy env args
  else
    let ret ← calleeRet env (callOf env callee args) pick (← valueTy callee)
    if !ret.isInvalid then return ret
    match constructed? env callee with
    | some object => return ret.join (← valueTy object)
    | none => return ret

end LuaTypes
