import LuaTypes.Infer.Member

/-!
Types of functions. What the comment says about parameters and return values stands; return values
that it does not mention are those of the return statements of the body.
-/

namespace LuaTypes

/-- The return statements with values below a node, functions within left out, where `room` levels
are left. Of several children the last comes first. -/
def Program.returnsWithin (p : Program) (room : Nat) (id : NodeId) : List (List NodeId) :=
  match room with
  | 0 => []
  | room + 1 =>
    match p.node? id with
    | none => []
    | some (.ret values) => if values.isEmpty then [] else [values]
    | some node =>
      if node.isFunction then [] else node.children.reverse.flatMap (p.returnsWithin room)

/-- The values of the return statements of a function's block. -/
def Program.returnsOf (p : Program) (block : NodeId) : List (List NodeId) :=
  p.returnsWithin p.nodes.size block

variable (env : Env)

/-- The values of one return statement: all values of a single expression, else the first value of
each. -/
def returnedTy (values : List NodeId) : Asking Ty :=
  match values with
  | [value] => ask (.value value .all)
  | values => return .tuple (← values.mapM valueTy)

/-- The return type of a body: void if no statement returns a value. -/
def bodyReturnTy (block : NodeId) : Asking Ty :=
  let returns := env.program.returnsOf block
  if env.cancelled || returns.isEmpty then return .void
  else Asking.unionOf env (returnedTy) returns

/-- The parameters with their documented types. -/
def paramTys (doc? : Option Doc) (params : List NodeId) : Infer (List Field) :=
  let names := params.filterMap fun id => env.program.node? id >>= (·.declaredName?)
  names.mapM fun name => do return ⟨name, ← paramTy env doc? name⟩

/-- The documented type of further arguments, unknown without one. -/
def furtherTy (doc? : Option Doc) : Infer Ty :=
  match doc? >>= (·.vararg?) with
  | some ty => Infer.expand env ty
  | none => return .unknown

/-- The documented return type, else that of the body. -/
def resultTy (doc? : Option Doc) (block : NodeId) : Asking Ty :=
  match doc?.elim [] (·.returns) with
  | [] => bodyReturnTy env block
  | [ty] => Infer.expand env ty
  | types => (Ty.tuple <$> types.mapM (Infer.expand env) : Infer Ty)

/-- The type of a function-like node; any other node is unknown. -/
def functionTy (func : NodeId) : Asking Ty := do
  match env.program.node? func with
  | none => return .unknown
  | some node =>
    match node.funcBody? with
    | none => return .unknown
    | some body =>
      let doc? := env.program.functionDoc? func
      let params ← paramTys env doc? body.params
      let vararg? ← (if body.vararg then some <$> furtherTy env doc? else pure none : Infer _)
      let ret ← resultTy env doc? body.block
      return .func ⟨node.isColonMethod, params, vararg?, ret, doc?.elim [] (·.typeParams)⟩
        (doc?.elim [] (·.overloads))

end LuaTypes
