import LuaTypes.Program.Basic

/-!
Drafts of programs. Nodes are made from the leaves up, as a parser finishes them, and statement
lists become files; building gives every node that a file reaches its place.
-/

namespace LuaTypes

structure DraftFile where
  path : String
  root : NodeId
  stdLib : Bool

structure Draft where
  nodes : Array Node := #[]
  docs : Std.HashMap NodeId Doc := {}
  files : Array DraftFile := #[]

/-- A step of writing a draft. -/
abbrev Drafting := StateM Draft

namespace Draft

/-- Makes a node. -/
def node (n : Node) : Drafting NodeId :=
  modifyGet fun d => (d.nodes.size, { d with nodes := d.nodes.push n })

/-- Puts a comment on a node, in place of any earlier one. -/
def doc (id : NodeId) (doc : Doc) : Drafting NodeId :=
  modifyGet fun d => (id, { d with docs := d.docs.insert id doc })

def names (ns : List String) : Drafting (List NodeId) := ns.mapM fun n => node (.nameDef n)

def block (stmts : List NodeId) : Drafting NodeId := node (.block stmts)

/-- Makes the parameters of a function and its block. -/
def funcBody (params : List String) (vararg : Bool) (stmts : List NodeId) : Drafting FuncBody := do
  let params ← names params
  return ⟨params, vararg, ← block stmts⟩

def localDef (ns : List String) (values : List NodeId) : Drafting NodeId := do
  node (.localDef (← names ns) values)

def funcDef (name : String) (params : List String) (vararg : Bool) (stmts : List NodeId) :
    Drafting NodeId := do
  node (.funcDef name (← funcBody params vararg stmts))

def localFuncDef (name : String) (params : List String) (vararg : Bool) (stmts : List NodeId) :
    Drafting NodeId := do
  let name ← node (.nameDef name)
  node (.localFuncDef name (← funcBody params vararg stmts))

def methodDef (receiver : NodeId) (name : String) (colon : Bool) (params : List String)
    (stmts : List NodeId) : Drafting NodeId := do
  node (.methodDef receiver name colon (← funcBody params false stmts))

def closure (params : List String) (vararg : Bool) (stmts : List NodeId) : Drafting NodeId := do
  node (.closure (← funcBody params vararg stmts))

def ifStat (cond : NodeId) (thenStmts : List NodeId) (elseStmts? : Option (List NodeId)) :
    Drafting NodeId := do
  let thenBlock ← block thenStmts
  node (.ifStat cond thenBlock (← elseStmts?.mapM block))

def whileStat (cond : NodeId) (stmts : List NodeId) : Drafting NodeId := do
  node (.whileStat cond (← block stmts))

def forNum (var : String) (start stop : NodeId) (step? : Option NodeId) (stmts : List NodeId) :
    Drafting NodeId := do
  let var ← node (.nameDef var)
  node (.forNum var start stop step? (← block stmts))

def forIn (vars : List String) (exprs stmts : List NodeId) : Drafting NodeId := do
  let vars ← names vars
  node (.forIn vars exprs (← block stmts))

def doStat (stmts : List NodeId) : Drafting NodeId := do node (.doStat (← block stmts))

/-- Makes a file of statements and answers its id. -/
def file (path : String) (stdLib : Bool) (stmts : List NodeId) : Drafting FileId := do
  let root ← block stmts
  modifyGet fun d => (d.files.size, { d with files := d.files.push ⟨path, root, stdLib⟩ })

/-- Gives the nodes of a file their places. A node that is reached again moves to the later
place. -/
def placeFile (nodes : Array Node) (places : Array (Option Place)) (f : DraftFile × FileId) :
    Array (Option Place) :=
  (linksFrom nodes f.1.root).zipIdx.foldl
    (fun places ((id, parent?), offset) => places.setIfInBounds id (some ⟨f.2, parent?, offset⟩))
    places

/-- The program of a draft. -/
def build (d : Draft) : Program where
  nodes := d.nodes
  places := d.files.toList.zipIdx.foldl (placeFile d.nodes) (Array.replicate d.nodes.size none)
  files := d.files.mapIdx fun i f => ⟨i, f.path, f.root, f.stdLib⟩
  docs := d.docs

end Draft

end LuaTypes
