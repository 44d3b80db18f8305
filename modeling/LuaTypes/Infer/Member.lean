import LuaTypes.Infer.Chain
import LuaTypes.Infer.Declared
import LuaTypes.Program.Text
import LuaTypes.Ty.Bindings

/-!
Types of members and globals.
-/

namespace LuaTypes

variable (env : Env)

/-- The first value of a node. -/
def valueTy (id : NodeId) : Asking Ty := ask (.value id (.nth 0))

/-- The value at a position of an expression list: the last expression gives the values beyond
it. -/
def listedTy (values : List NodeId) (index : Nat) : Asking Ty :=
  match values[index]?, values.getLast? with
  | some value, _ => valueTy value
  | none, some last => ask (.value last (.nth (index - (values.length - 1))))
  | none, none => return .unknown

/-- The type that an assignment gives to its target: the documented type, and the value unless the
statement only clears its target or names the environment. A documented type other than that of a
table literal stands alone. -/
def assignedTy (target : NodeId) : Asking Ty :=
  match env.program.assignTarget? target with
  | none => return .unknown
  | some (stmt, index) =>
    match env.program.node? stmt with
    | some (.assign _ values) => do
      let declared := (← declaredTy? env stmt).getD .unknown
      let isTableValue := values[index]?.any env.program.isTable
      if !declared.isInvalid && !isTableValue then return declared
      let text := env.program.listText values
      if text = nilWord || text = envWord then return declared
      return declared.join (← ask (.listed text values index))
    | _ => return .unknown

/-- The type that the declaration of a member gives to it. -/
def memberTy (d : MemberDecl) : Asking Ty :=
  match d.origin with
  | .method node | .funcDef node | .tableField node => valueTy node
  | .docField ty | .docTableField ty => Infer.expand env ty
  | .assign target | .globalAssign target => assignedTy env target

/-- The type of a global: what its declarations give, and unless that is a primitive type, the class
that stores its fields; where globals double as types, also the class of its name. -/
def globalTy (name : String) : Asking Ty := do
  let declared ← ask (.globalDecls name)
  if declared.isPrimitive then return declared
  let ty := declared.join (.cls (.global name))
  if env.settings.globalsAreTypes then
    return ty.join (.cls (.globalNamed name (← Infer.read freshCell)))
  else return ty

/-- The union over all declarations of a global. -/
def globalDeclsTy (name : String) : Asking Ty :=
  Asking.unionOf env (memberTy env) (env.index.exact envWord name false)

/-- The declarations that the first of their place in the source are kept of. -/
def firstOfEachPlace (seen : List (FileId × Nat)) : List MemberDecl → List MemberDecl
  | [] => []
  | d :: rest =>
    if (d.file, d.offset) ∈ seen then firstOfEachPlace seen rest
    else d :: firstOfEachPlace ((d.file, d.offset) :: seen) rest

/-- The type of a member from its declarations, the winning one first, for a use. Reading ends once
a declaration settles the type for that use. -/
def declsTy (use : Use) (ty : Ty) : List MemberDecl → Asking Ty
  | [] => return ty
  | d :: rest => do
    match d.origin with
    | .method _ | .funcDef _ =>
      let ty ← (if use = .field then pure ty else ty.join <$> memberTy env d)
      if use = .method && !ty.isInvalid then return ty else declsTy use ty rest
    | .docField _ =>
      let found ← memberTy env d
      if use = .method then
        if found.each.any Ty.isFunction then return ty.join found else declsTy use ty rest
      else
        let ty := ty.join found
        if use = .field && !ty.isInvalid then return ty else declsTy use ty rest
    | .docTableField _ | .tableField _ =>
      let ty := ty.join (← memberTy env d)
      if !ty.isInvalid then return ty else declsTy use ty rest
    | .assign _ | .globalAssign _ => declsTy use (ty.join (← memberTy env d)) rest

/-- The type of a member of a class for a use, from its winning declaration and from the other
declarations of the name on the class that won. -/
def fieldTy (c : ClassTy) (name : String) (use : Use) : Asking Ty := do
  if c.name = envWord then globalTy env name
  else
    match ← findMember env c name with
    | none => return .unknown
    | some winner =>
      let decls := firstOfEachPlace [] (winner :: env.index.exact winner.className name false)
      if env.cancelled then return .unknown else declsTy env use .unknown decls

/-- A class that a member may be looked up on, with the type arguments if it is applied to any. -/
structure Candidate where
  cls : ClassTy
  args? : Option (List Ty)

/-- The class that members are looked up on, for a type that is no union. Strings have the members
of their class. -/
def candidate? : Ty → Infer (Option Candidate)
  | .cls c => return some ⟨c, none⟩
  | .generic base args => return base.asClass?.map fun c => ⟨c, some args⟩
  | .prim .string => return some ⟨← Infer.read (newClass stringWord), none⟩
  | _ => return none

/-- The classes at the top of a type that members are looked up on. -/
def candidates (ty : Ty) : Infer (List Candidate) := do
  return (← ty.each.mapM candidate?).filterMap id

/-- Type parameters bound to type arguments by their positions. -/
def Bindings.ofArgs (names : List String) (args : List Ty) : Bindings :=
  names.zipIdx.foldl (fun b param => b.insert param.1 (typeArg args param.2)) {}

/-- Puts the type arguments of a candidate in place of the type parameters of its class. -/
def Candidate.instantiate (c : Candidate) (ty : Ty) : Infer Ty := do
  match c.args? with
  | none => return ty
  | some args =>
    let names ← Infer.read (c.cls.generics env.resolver)
    if names.isEmpty then return ty else return (Bindings.ofArgs names args).apply ty

def Candidate.fieldTy (name : String) (use : Use) (c : Candidate) : Asking Ty := do
  let found ←
    (if c.cls.name = envWord then globalTy env name else ask (.field c.cls name use))
  c.instantiate env found

/-- The type of a member looked up on a type. The classes of the standard library come first, and
those of the project are asked only if the library has nothing. -/
def lookupTy (ty : Ty) (name : String) (use : Use) : Asking Ty := do
  let all ← candidates ty
  let isLibrary := fun c : Candidate => (env.index.findClass? c.cls.name).any (·.stdLib)
  let found ← Asking.unionOf env (Candidate.fieldTy env name use) (all.filter isLibrary)
  if found.isInvalid then
    return found.join
      (← Asking.unionOf env (Candidate.fieldTy env name use) (all.filter (!isLibrary ·)))
  else return found

end LuaTypes
