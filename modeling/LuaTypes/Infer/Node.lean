import LuaTypes.Infer.Call
import LuaTypes.Infer.Function

/-!
Types of nodes, by the kind of node.
-/

namespace LuaTypes

variable (env : Env)

/-- Adds the class of a local, if members were declared on it. -/
def withLocalClass (decl : NodeId) (name : String) (ty : Ty) : Ty :=
  let cls := localClassName (env.program.pathOf decl) (env.program.offset decl)
  if env.index.hasMembers cls then ty.join (.cls (.anonymous cls name)) else ty

/-- What a function returns at a position. -/
def Ty.returnedAt? (position : Nat) : Ty → Option Ty
  | .func main _ => some (main.ret.valueAt position)
  | _ => none

/-- The loop variable at a position: what the functions of the first expression return there. -/
def loopVarTy (exprs : List NodeId) (position : Nat) : Asking Ty :=
  match exprs with
  | [] => return .unknown
  | first :: _ => do
    let iterator ← valueTy first
    return .unionAll (iterator.each.filterMap (Ty.returnedAt? position))

/-- The type of a local: for the first name of its statement the documented one, else that of its
value, and the class of the local if it has one. -/
def localTy (stmt decl : NodeId) (name : String) (position : Nat) (values : List NodeId) :
    Asking Ty := do
  match ← (if position = 0 then declaredTy? env stmt else pure none : Infer _) with
  | some ty => return withLocalClass env decl name ty
  | none => return withLocalClass env decl name (← listedTy values position)

/-- The type of a declared name. -/
def declarationTy (decl : NodeId) (name : String) : Asking Ty :=
  match env.program.parent? decl with
  | none => return .unknown
  | some parent =>
    let position := fun ids : List NodeId => (ids.findIdx? (· == decl)).getD 0
    let documented := paramTy env (env.program.functionDoc? parent) name
    match env.program.node? parent with
    | some (.localDef names values) => localTy env parent decl name (position names) values
    | some (.localFuncDef own _) => if own = decl then valueTy parent else documented
    | some (.forNum var ..) => return if var = decl then .number else .unknown
    | some (.forIn vars exprs _) => loopVarTy exprs (position vars)
    | some (.funcDef ..) | some (.methodDef ..) | some (.closure _) => documented
    | _ => return .unknown

/-- The type of a name: of the local that it means, of the receiver for `self` in a colon method,
else of the global. -/
def nameTy (id : NodeId) (name : String) : Asking Ty :=
  match env.program.resolve? name id with
  | some decl => valueTy decl
  | none =>
    match if name = selfWord then env.program.selfReceiver? id else none with
    | some receiver => valueTy receiver
    | none => globalTy env name

/-- What the member that an index reads is used as. -/
def useOf (id : NodeId) : Use :=
  match env.program.parentNode? id with
  | some (.call callee _) => if callee = id then .method else .any
  | some (.index object _) => if object = id then .field else .any
  | _ => .any

/-- The member name that a key gives. -/
def memberName? (key : IndexKey) : Option String :=
  match key with
  | .dot name | .colon name => some name
  | .bracket key => env.program.node? key >>= (·.stringValue?)

/-- The elements of an array, for a key in brackets. -/
def IndexKey.element? (key : IndexKey) : Ty → Option Ty
  | .array element => if key matches .bracket _ then some element else none
  | _ => none

/-- The values of a table with string keys. -/
def Ty.stringKeyed? : Ty → Option Ty
  | .generic _ [k, v] => if k == Ty.string then some v else none
  | _ => none

/-- What an object without a look-up gives for any key: the elements of arrays to a key in brackets,
and then the values of tables with string keys. -/
def elementTy (object : Ty) (key : IndexKey) : Ty :=
  let ty := (object.each.filterMap key.element?).foldl Ty.join .unknown
  if !ty.isInvalid then ty
  else (object.each.filterMap Ty.stringKeyed?).foldl Ty.join ty

/-- The type of a member that is read. -/
def readTy (id object : NodeId) (key : IndexKey) : Asking Ty := do
  let objectTy ← valueTy object
  let element := elementTy objectTy key
  if !element.isInvalid then return element
  match memberName? env key with
  | some name => lookupTy env objectTy name (useOf env id)
  | none => return element

/-- The type of an index. A target that the comment of its assignment gives a type has that type,
and one that nothing is known of has the type of what is assigned to it. -/
def indexTy (id object : NodeId) (key : IndexKey) : Asking Ty := do
  match env.program.assignTarget? id with
  | none => readTy env id object key
  | some (stmt, position) =>
    let declared := (← declaredTy? env stmt).getD .unknown
    if !declared.isInvalid then return declared
    let ty ← readTy env id object key
    if !ty.isInvalid then return ty
    match env.program.node? stmt with
    | some (.assign _ values) => ask (.listed (env.program.text id) values position)
    | _ => return ty

/-- The operand reads the variable that the statement around the node assigns. A local is not
visible in its own statement, so there the name must mean no other local. -/
def readsOwnTarget (id operand : NodeId) : Bool :=
  let p := env.program
  let isNamed := fun target => p.text target == p.text operand
  match p.enclosingStatement? id >>= p.node? with
  | some (.assign targets _) => targets.any isNamed
  | some (.localDef names _) =>
    match p.usedName? operand with
    | some name => (p.resolve? name operand).isNone && names.any isNamed
    | none => false
  | _ => false

/-- The type of a binary operation. A variable in its own assignment adds nothing. -/
def binaryTy (id : NodeId) (op : BinaryOp) (lhs rhs : NodeId) : Asking Ty := do
  match op with
  | .and => if readsOwnTarget env id rhs then return .unknown else valueTy rhs
  | .or =>
    if readsOwnTarget env id lhs then valueTy rhs
    else return (← valueTy lhs).join (← valueTy rhs)
  | .concat => return .string
  | op => return if op.isComparison then .boolean else .number

/-- The table literal that collects the further arguments of its function. -/
def collectsVararg (fields : List NodeId) : Bool :=
  match fields with
  | [field] =>
    match env.program.node? field with
    | some (.tableField _ value) => (env.program.node? value).any (·.isVararg)
    | _ => false
  | _ => false

/-- The class of a table literal. -/
def literalClassTy (id : NodeId) (fields : List NodeId) : Ty :=
  match env.program.fileOf? id with
  | some file => .cls (.tableLiteral file.path file.id id (env.program.offset id) fields.length)
  | none => .unknown

/-- The type of a table literal: an array of the further arguments if it collects them and they are
documented, else a class of its own. -/
def tableTy (id : NodeId) (fields : List NodeId) : Infer Ty := do
  match ← (if collectsVararg env fields then varargTy? env id else pure none) with
  | some element => return .array element
  | none => return literalClassTy env id fields

/-- The type of a literal. -/
def literalTy (id : NodeId) : Literal → Infer Ty
  | .nil => return .nil
  | .bool _ => return .boolean
  | .number _ => return .number
  | .string _ => return .string
  | .vararg => return (← varargTy? env id).getD .unknown

/-- The type of a table field: the documented one, else that of its value. -/
def tableFieldTy (id value : NodeId) : Asking Ty :=
  match env.program.doc? id >>= (·.type?) with
  | some ty => Infer.expand env ty
  | none => valueTy value

/-- The type of a node. -/
def nodeTy (id : NodeId) (pick : Pick) : Asking Ty :=
  match env.program.node? id with
  | none => return .unknown
  | some node =>
    match node with
    | .nameDef name => declarationTy env id name
    | .nameRef name => nameTy env id name
    | .index object key => indexTy env id object key
    | .call callee args => callTy env callee args pick
    | .unary op _ => return if op = .not then .boolean else .number
    | .binary op lhs rhs => binaryTy env id op lhs rhs
    | .literal value => literalTy env id value
    | .table fields => tableTy env id fields
    | .tableField _ value => tableFieldTy env id value
    | .paren expr => valueTy expr
    | .closure _ | .funcDef .. | .localFuncDef .. | .methodDef .. => functionTy env id
    | _ => return .unknown

end LuaTypes
