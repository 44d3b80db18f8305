/-!
Nodes of a syntax tree. A node names its children by their positions in the program.
-/

namespace LuaTypes

/-- The position of a node in its program. -/
abbrev NodeId := Nat

/-- The position of a file in its program. -/
abbrev FileId := Nat

inductive UnaryOp
  | neg | not | len | bitNot
  deriving DecidableEq

def UnaryOp.text : UnaryOp → String
  | .neg => "-"
  | .not => "not "
  | .len => "#"
  | .bitNot => "~"

inductive BinaryOp
  | add | sub | mul | div | idiv | mod | pow | concat
  | eq | ne | lt | le | gt | ge
  | and | or
  | bitAnd | bitOr | bitXor | shl | shr
  deriving DecidableEq

namespace BinaryOp

def text : BinaryOp → String
  | .add => "+"
  | .sub => "-"
  | .mul => "*"
  | .div => "/"
  | .idiv => "//"
  | .mod => "%"
  | .pow => "^"
  | .concat => ".."
  | .eq => "=="
  | .ne => "~="
  | .lt => "<"
  | .le => "<="
  | .gt => ">"
  | .ge => ">="
  | .and => "and"
  | .or => "or"
  | .bitAnd => "&"
  | .bitOr => "|"
  | .bitXor => "~"
  | .shl => "<<"
  | .shr => ">>"

def all : List BinaryOp :=
  [.add, .sub, .mul, .div, .idiv, .mod, .pow, .concat, .eq, .ne, .lt, .le, .gt, .ge, .and, .or,
    .bitAnd, .bitOr, .bitXor, .shl, .shr]

def ofText? (s : String) : Option BinaryOp := all.find? (·.text == s)

def isComparison : BinaryOp → Bool
  | .eq | .ne | .lt | .le | .gt | .ge => true
  | _ => false

end BinaryOp

inductive Literal
  | nil
  | bool (b : Bool)
  /-- The number as it is spelled. -/
  | number (text : String)
  | string (value : String)
  | vararg
  deriving DecidableEq

inductive IndexKey
  | dot (name : String)
  /-- Only in a call. -/
  | colon (name : String)
  | bracket (key : NodeId)
  deriving DecidableEq

inductive FieldKey
  | name (name : String)
  | expr (key : NodeId)
  | positional
  deriving DecidableEq

structure FuncBody where
  params : List NodeId
  vararg : Bool
  block : NodeId
  deriving DecidableEq

inductive Node
  | block (stmts : List NodeId)
  | localDef (names values : List NodeId)
  | assign (targets values : List NodeId)
  | exprStat (expr : NodeId)
  | ret (values : List NodeId)
  /-- A global function. -/
  | funcDef (name : String) (body : FuncBody)
  | localFuncDef (name : NodeId) (body : FuncBody)
  /-- A function declared as a field of the receiver, with a dot or a colon. -/
  | methodDef (receiver : NodeId) (name : String) (colon : Bool) (body : FuncBody)
  | ifStat (cond thenBlock : NodeId) (elseBlock? : Option NodeId)
  | whileStat (cond body : NodeId)
  | forNum (var start stop : NodeId) (step? : Option NodeId) (body : NodeId)
  | forIn (vars exprs : List NodeId) (body : NodeId)
  | doStat (body : NodeId)
  /-- The name of a local, a parameter or a loop variable where it is declared. -/
  | nameDef (name : String)
  | nameRef (name : String)
  | index (object : NodeId) (key : IndexKey)
  | call (callee : NodeId) (args : List NodeId)
  | unary (op : UnaryOp) (operand : NodeId)
  | binary (op : BinaryOp) (lhs rhs : NodeId)
  | literal (value : Literal)
  | table (fields : List NodeId)
  | tableField (key : FieldKey) (value : NodeId)
  | closure (body : FuncBody)
  | paren (expr : NodeId)
  deriving DecidableEq

def FuncBody.children (b : FuncBody) : List NodeId := b.params ++ [b.block]

namespace Node

/-- The children in the order of the source. -/
def children : Node → List NodeId
  | .block stmts => stmts
  | .localDef names values => names ++ values
  | .assign targets values => targets ++ values
  | .exprStat expr | .paren expr => [expr]
  | .ret values => values
  | .funcDef _ body | .closure body => body.children
  | .localFuncDef name body => name :: body.children
  | .methodDef receiver _ _ body => receiver :: body.children
  | .ifStat cond thenBlock elseBlock? => cond :: thenBlock :: elseBlock?.toList
  | .whileStat cond body => [cond, body]
  | .forNum var start stop step? body => [var, start, stop] ++ step?.toList ++ [body]
  | .forIn vars exprs body => vars ++ exprs ++ [body]
  | .doStat body => [body]
  | .nameDef _ | .nameRef _ | .literal _ => []
  | .index object (.bracket key) => [object, key]
  | .index object _ => [object]
  | .call callee args => callee :: args
  | .unary _ operand => [operand]
  | .binary _ lhs rhs => [lhs, rhs]
  | .table fields => fields
  | .tableField (.expr key) value => [key, value]
  | .tableField _ value => [value]

def isStatement : Node → Bool
  | .localDef .. | .assign .. | .exprStat _ | .ret _ | .funcDef .. | .localFuncDef ..
  | .methodDef .. | .ifStat .. | .whileStat .. | .forNum .. | .forIn .. | .doStat _ => true
  | _ => false

/-- The body of a function-like node. -/
def funcBody? : Node → Option FuncBody
  | .funcDef _ body | .localFuncDef _ body | .methodDef _ _ _ body | .closure body => some body
  | _ => none

def isFunction (n : Node) : Bool := n.funcBody?.isSome

/-- A method declared with a colon. -/
def isColonMethod : Node → Bool
  | .methodDef _ _ colon _ => colon
  | _ => false

/-- The name of a name where it is declared. -/
def declaredName? : Node → Option String
  | .nameDef name => some name
  | _ => none

/-- The name of a name where it is used. -/
def usedName? : Node → Option String
  | .nameRef name => some name
  | _ => none

/-- The value of a string literal. -/
def stringValue? : Node → Option String
  | .literal (.string value) => some value
  | _ => none

def isTable : Node → Bool
  | .table _ => true
  | _ => false

def isVararg : Node → Bool
  | .literal .vararg => true
  | _ => false

/-- What a kind of node is called. -/
def kindName : Node → String
  | .block _ => "Block"
  | .localDef .. => "LocalDef"
  | .assign .. => "Assign"
  | .exprStat _ => "ExprStat"
  | .ret _ => "Return"
  | .funcDef .. => "FuncDef"
  | .localFuncDef .. => "LocalFuncDef"
  | .methodDef .. => "ClassMethodDef"
  | .ifStat .. => "If"
  | .whileStat .. => "While"
  | .forNum .. => "ForNum"
  | .forIn .. => "ForIn"
  | .doStat _ => "Do"
  | .nameDef _ => "NameDef"
  | .nameRef _ => "Name"
  | .index .. => "Index"
  | .call .. => "Call"
  | .unary .. => "Unary"
  | .binary .. => "Binary"
  | .literal _ => "Literal"
  | .table _ => "Table"
  | .tableField .. => "TableField"
  | .closure _ => "Closure"
  | .paren _ => "Paren"

end Node

end LuaTypes
