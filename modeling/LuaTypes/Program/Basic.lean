import Std.Data.HashMap
import LuaTypes.Program.Doc
import LuaTypes.Program.Node

/-!
Programs: the nodes of all files in one array, with their doc comments. Every node that a file
reaches has a place: its file, its parent and its offset, which counts the nodes of the file in
source order.
-/

namespace LuaTypes

structure Place where
  file : FileId
  parent? : Option NodeId
  offset : Nat
  deriving DecidableEq

structure SourceFile where
  id : FileId
  path : String
  root : NodeId
  /-- What the standard library declares comes first in member look-ups. -/
  stdLib : Bool
  deriving DecidableEq

structure Program where
  nodes : Array Node := #[]
  /-- The place of each node, none for a node that no file reaches. -/
  places : Array (Option Place) := #[]
  files : Array SourceFile := #[]
  docs : Std.HashMap NodeId Doc := {}

/-- The nodes below a root in source order, each with the node that it was reached from, where
`room` levels are left. A position without a node is passed over. -/
def preorderWithin (nodes : Array Node) (room : Nat) (parent? : Option NodeId) (id : NodeId) :
    List (NodeId × Option NodeId) :=
  match room with
  | 0 => []
  | room + 1 =>
    match nodes[id]? with
    | none => []
    | some node => (id, parent?) :: node.children.flatMap (preorderWithin nodes room (some id))

/-- The nodes below a root in source order. A path down never meets a node twice, so it has no more
steps than there are nodes. -/
def linksFrom (nodes : Array Node) (root : NodeId) : List (NodeId × Option NodeId) :=
  preorderWithin nodes nodes.size none root

namespace Program

variable (p : Program)

def node? (id : NodeId) : Option Node := p.nodes[id]?

def place? (id : NodeId) : Option Place := p.places[id]?.join

def parent? (id : NodeId) : Option NodeId := do (← p.place? id).parent?

def parentNode? (id : NodeId) : Option Node := do p.node? (← p.parent? id)

/-- The offset of a node, zero for one without a place. -/
def offset (id : NodeId) : Nat := (p.place? id).elim 0 (·.offset)

def file? (file : FileId) : Option SourceFile := p.files[file]?

def fileOf? (id : NodeId) : Option SourceFile := do p.file? (← p.place? id).file

/-- The path of the file of a node, empty for one without a place. -/
def pathOf (id : NodeId) : String := (p.fileOf? id).elim "" (·.path)

def fileByPath? (path : String) : Option SourceFile := p.files.toList.find? (·.path == path)

def doc? (id : NodeId) : Option Doc := p.docs[id]?

/-- The class that the comment of a node declares. -/
def docClass? (id : NodeId) : Option DocClass := do (← p.doc? id).class?

def usedName? (id : NodeId) : Option String := do (← p.node? id).usedName?

def isTable (id : NodeId) : Bool := (p.node? id).any (·.isTable)

/-- The nodes of a file in source order. -/
def preorder (file : SourceFile) : List NodeId := (linksFrom p.nodes file.root).map (·.1)

/-- The parents of a node, nearest first, where `room` steps are left. -/
def ancestorsWithin (room : Nat) (id : NodeId) : List NodeId :=
  match room with
  | 0 => []
  | room + 1 =>
    match p.parent? id with
    | none => []
    | some parent => parent :: ancestorsWithin room parent

/-- The parents of a node, nearest first. -/
def ancestors (id : NodeId) : List NodeId := p.ancestorsWithin p.nodes.size id

/-- The innermost function around a node. -/
def enclosingFunction? (id : NodeId) : Option NodeId :=
  (p.ancestors id).find? fun a => (p.node? a).any (·.isFunction)

/-- The innermost method around a node, seen through the functions within it. -/
def enclosingMethod? (id : NodeId) : Option NodeId :=
  (p.ancestors id).find? fun a => (p.node? a).any (· matches .methodDef ..)

/-- The innermost statement or function around a node. -/
def enclosingStatement? (id : NodeId) : Option NodeId :=
  (p.ancestors id).find? fun a => (p.node? a).any fun n => n.isStatement || n.isFunction

/-- The assignment that a node is part of, if no other statement and no function is between. -/
def enclosingAssign? (id : NodeId) : Option NodeId := do
  let stmt ← p.enclosingStatement? id
  match ← p.node? stmt with
  | .assign .. => return stmt
  | _ => none

/-- The comment of a function. A closure has the comment of the declaration that it is a value
of. -/
def functionDoc? (func : NodeId) : Option Doc := do
  match ← p.node? func with
  | .closure _ =>
    let parent ← p.parent? func
    match ← p.node? parent with
    | .localDef .. | .assign .. | .tableField .. => p.doc? parent
    | _ => none
  | _ => p.doc? func

/-- The assignment that a node is a target of, and its position among the targets. -/
def assignTarget? (expr : NodeId) : Option (NodeId × Nat) := do
  let stmt ← p.parent? expr
  match ← p.node? stmt with
  | .assign targets _ => return (stmt, ← targets.findIdx? (· == expr))
  | _ => none

end Program

end LuaTypes
