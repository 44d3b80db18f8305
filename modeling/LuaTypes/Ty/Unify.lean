import LuaTypes.Class.Memo
import LuaTypes.Guard
import LuaTypes.Ty.Bindings

/-!
Inference of type arguments from a call. The formal type of a parameter is read beside the type of
the actual argument; a class node named like a type parameter adds the actual type to what the
parameter is bound to, and parts that do not fit each other bind nothing.
-/

namespace LuaTypes

structure Unifier where
  bindings : Bindings
  depth : DepthCounter

namespace Unifier

/-- Binds only the type parameters of the signature, all unknown at first. -/
def ofSignature (sig : Signature) : Unifier where
  bindings := sig.typeParams.foldl (fun b p => b.insert p.name .unknown) {}
  depth := .new maxSubstDepth

def enter : StateM Unifier Bool :=
  modifyGet fun u => let (ok, depth) := u.depth.enter; (ok, { u with depth })

def leave : StateM Unifier Unit := modify fun u => { u with depth := u.depth.leave }

/-- Adds a type to what a name is bound to, if it is a type parameter. -/
def bind (name : String) (actual : Ty) : StateM Unifier Unit :=
  modify fun u => { u with bindings := u.bindings.modify name (·.join actual) }

/-- Reads the parts of an actual type beside the parts of its formal type. -/
def unifyParts (unify : Ty → Ty → StateM Unifier Unit) (actual formal : Ty) :
    StateM Unifier Unit :=
  match formal with
  | .cls c => bind c.name actual
  | .union members => members.forM (unify actual)
  | .array formalElement =>
    actual.each.forM fun
      | .array element => unify element formalElement
      | _ => pure ()
  | .generic formalBase formalArgs =>
    actual.each.forM fun
      | .generic base args => do
        unify base formalBase
        args.zipIdx.forM fun (arg, i) => unify arg (typeArg formalArgs i)
      | _ => pure ()
  | .func formalMain _ =>
    actual.each.forM fun
      | .func main _ => unify main.ret formalMain.ret
      | _ => pure ()
  | _ => pure ()

/-- Reads one actual type beside its formal type, `room` levels deep at most. An unknown actual
type says nothing. -/
def unifyWithin (room : Nat) (actual formal : Ty) : StateM Unifier Unit :=
  match room with
  | 0 => pure ()
  | room + 1 => do
    if !actual.isInvalid then
      if ← enter then
        unifyParts (unifyWithin room) actual formal
        leave

/-- Reads one actual type beside its formal type, down to the nesting limit. -/
def unify (actual formal : Ty) : StateM Unifier Unit :=
  unifyWithin (maxSubstDepth + 1) actual formal

/-- A type parameter that nothing was found for takes its bound, if it has one. -/
def orBound (bindings : Bindings) (p : TypeParam) : Reading Bindings :=
  match p.bound?, bindings.get? p.name with
  | some bound, some ty =>
    if ty.isInvalid then return bindings.insert p.name (.cls (← newClass bound))
    else return bindings
  | _, _ => return bindings

/-- The bindings at the end, without the parameters that are still unknown. -/
def finish (u : Unifier) (sig : Signature) : Reading Bindings :=
  return (← sig.typeParams.foldlM orBound u.bindings).filter (!·.isInvalid)

end Unifier

/-- The arguments of a call, each with the formal type that it is read beside. The receiver of a
colon signature goes with none, each parameter with its argument, and the vararg type with every
argument left over. -/
def Signature.pairs (sig : Signature) (args : List Ty) : List (Ty × Ty) :=
  let args := if sig.colon then args.drop 1 else args
  let fixed := args.zipWith (fun actual p => (actual, p.ty)) sig.params
  let rest := sig.vararg?.elim [] fun v => (args.drop sig.params.length).map (·, v)
  fixed ++ rest

/-- What the arguments of a call say about the type parameters of a signature. -/
def Signature.unifier (sig : Signature) (args : List Ty) : Unifier :=
  let unifyAll := (sig.pairs args).forM fun pair => Unifier.unify pair.1 pair.2
  (unifyAll.run (.ofSignature sig)).2

/-- Binds the type parameters of a signature from the arguments of a call, receiver included. A
signature without type parameters has no bindings. -/
def Signature.bindArgs? (sig : Signature) (args : List Ty) : Reading (Option Bindings) := do
  if !sig.isGeneric then return none
  return some (← (sig.unifier args).finish sig)

end LuaTypes
