import LuaTypes.Program.Basic

/-!
Lexical scopes. A name means the innermost declaration that is visible where it is used: statements
before it in each block around it, the parameters of each function whose block it is in, the
variables of each loop whose body it is in, and the own name of each local function around it. The
names of a local statement are not visible within the statement.
-/

namespace LuaTypes.Program

variable (p : Program)

/-- The node declares the name. -/
def declares (name : String) (decl : NodeId) : Bool :=
  (p.node? decl).any fun n => n.declaredName? == some name

/-- The last declaration of the name in a list. -/
def lastDeclaring? (name : String) (defs : List NodeId) : Option NodeId :=
  defs.reverse.find? (p.declares name)

/-- What a statement declares for the statements after it. -/
def declaredBy? (name : String) (stmt : NodeId) : Option NodeId :=
  match p.node? stmt with
  | some (.localDef names _) => p.lastDeclaring? name names
  | some (.localFuncDef own _) => if p.declares name own then some own else none
  | _ => none

/-- What the node `scope` declares that is visible to its child `child`. -/
def visibleFrom? (name : String) (scope child : NodeId) : Option NodeId :=
  match p.node? scope with
  | some (.block stmts) =>
    if child ∈ stmts then
      (stmts.takeWhile (· != child)).reverse.findSome? (p.declaredBy? name)
    else none
  | some (.localFuncDef own body) =>
    if p.declares name own then some own
    else if child = body.block then p.lastDeclaring? name body.params else none
  | some (.funcDef _ body) | some (.methodDef _ _ _ body) | some (.closure body) =>
    if child = body.block then p.lastDeclaring? name body.params else none
  | some (.forNum var _ _ _ body) => if child = body && p.declares name var then some var else none
  | some (.forIn vars _ body) => if child = body then p.lastDeclaring? name vars else none
  | _ => none

/-- The first visible declaration among the scopes, which are given innermost first. -/
def firstVisible? (name : String) (child : NodeId) : List NodeId → Option NodeId
  | [] => none
  | scope :: outer => p.visibleFrom? name scope child <|> firstVisible? name scope outer

/-- The innermost declaration of a name that is visible at a node. -/
def resolve? (name : String) (site : NodeId) : Option NodeId :=
  p.firstVisible? name site (p.ancestors site)

/-- The receiver of a colon method. -/
def receiver? (method : NodeId) : Option NodeId :=
  match p.node? method with
  | some (.methodDef receiver _ true _) => some receiver
  | _ => none

/-- The receiver that `self` means at a node. -/
def selfReceiver? (site : NodeId) : Option NodeId := do p.receiver? (← p.enclosingMethod? site)

end LuaTypes.Program
