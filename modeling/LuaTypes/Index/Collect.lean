import LuaTypes.Index.Basic
import LuaTypes.Program.Scope

/-!
Indexing a program. A first pass collects the classes and aliases that comments declare, and which
globals are tagged with a class; a second pass collects members.

A member belongs to the class that its receiver names. A tagged variable names its class, a local
that a table literal initializes names the class of the literal, any other local a class of its own,
and an untagged global the class of that global. Globals are members of the environment.
-/

namespace LuaTypes

/-- An index in the making, with the classes that globals are tagged with. -/
structure Collecting where
  index : Index := {}
  taggedGlobals : Std.HashMap String String := {}

namespace Program

variable (p : Program)

/-- The name of a global that a node is; a name that means a local is none. -/
def globalName? (id : NodeId) : Option String := do
  let name ← p.usedName? id
  if (p.resolve? name id).isSome then none else return name

/-- The class that a local names. -/
def localClass (decl : NodeId) : String :=
  let ownClass := localClassName (p.pathOf decl) (p.offset decl)
  match p.parent? decl with
  | none => ownClass
  | some stmt =>
    match p.node? stmt with
    | some (.localDef names values) =>
      let position := (names.findIdx? (· == decl)).getD 0
      match (if position = 0 then p.docClass? stmt else none), values[position]? with
      | some cls, _ => cls.name
      | none, some value =>
        if p.isTable value then tableClassName (p.pathOf decl) (p.offset value) else ownClass
      | none, none => ownClass
    | _ => ownClass

/-- The class that a variable names, other than `self`. -/
def variableClass? (tagged : Std.HashMap String String) (id : NodeId) : Option String := do
  let name ← p.usedName? id
  match p.resolve? name id with
  | some decl => return p.localClass decl
  | none =>
    if name = selfWord then none else return tagged.getD name (globalClassName name)

/-- The class that members declared on a receiver belong to. Within a colon method, `self` names
what the receiver of the method names. -/
def receiverClass? (tagged : Std.HashMap String String) (id : NodeId) : Option String :=
  p.variableClass? tagged id <|>
    if p.globalName? id == some selfWord then p.selfReceiver? id >>= p.variableClass? tagged
    else none

/-- The receiver is a variable that is itself tagged with the class. -/
def isTagged (tagged : Std.HashMap String String) (id : NodeId) (cls : String) : Bool :=
  match p.usedName? id with
  | none => false
  | some name =>
    match p.resolve? name id with
    | some decl => ((p.parent? decl >>= p.docClass?).map (·.name)) == some cls
    | none => tagged[name]? == some cls

/-- The named fields of a table literal. -/
def namedFields (table : NodeId) : List (NodeId × String) :=
  match p.node? table with
  | some (.table fields) =>
    fields.filterMap fun field =>
      match p.node? field with
      | some (.tableField (.name name) _) => some (field, name)
      | _ => none
  | _ => []

end Program

namespace Collecting

variable (p : Program)

/-- Collects a class that the comment of a node declares. On an assignment to a global it tags the
global. -/
def tagClass (file : SourceFile) (c : Collecting) (id : NodeId) (cls : DocClass) : Collecting :=
  let index := c.index.addClass ⟨cls.name, file.id, id, file.stdLib, cls.details⟩
  match p.node? id with
  | some (.assign (target :: _) _) =>
    match p.globalName? target with
    | some name => { index, taggedGlobals := c.taggedGlobals.insert name cls.name }
    | none => { c with index }
  | _ => { c with index }

/-- Collects what the comment of a node declares. -/
def tags (file : SourceFile) (c : Collecting) (id : NodeId) : Collecting :=
  match p.doc? id with
  | none => c
  | some doc =>
    let c := doc.class?.elim c (tagClass p file c id)
    { c with index := doc.aliases.foldl (fun ix a => ix.addAlias ⟨a.name, file.id, a.ty⟩) c.index }

/-- A member that a file declares at a node. -/
def declare (file : SourceFile) (cls name : String) (origin : MemberOrigin) (offset : Nat)
    (authoritative : Bool) : MemberDecl :=
  ⟨name, cls, origin, file.id, offset, file.stdLib, authoritative⟩

/-- The fields that the comment of a node gives to the class that it declares. -/
def docFields (file : SourceFile) (id : NodeId) : List MemberDecl :=
  match p.doc? id with
  | none => []
  | some doc =>
    match doc.class? with
    | none => []
    | some cls =>
      doc.fields.map fun f => declare file cls.name f.name (.docField f.ty) (p.offset id) false

/-- The member that an assignment target declares. -/
def targetMember? (file : SourceFile) (tagged : Std.HashMap String String) (target : NodeId) :
    Option MemberDecl :=
  match p.node? target with
  | some (.index object (.dot name)) =>
    (p.receiverClass? tagged object).map fun cls =>
      declare file cls name (.assign target) (p.offset target) false
  | _ =>
    (p.globalName? target).map fun name =>
      declare file envWord name (.globalAssign target) (p.offset target) false

/-- The fields of the table literal that initializes a variable tagged with a class. -/
def tableMembers (file : SourceFile) (stmt : NodeId) (values : List NodeId) : List MemberDecl :=
  match p.docClass? stmt, values with
  | some cls, value :: _ =>
    (p.namedFields value).map fun (field, name) =>
      declare file cls.name name (.tableField field) (p.offset field) false
  | _, _ => []

/-- The members that a node declares. -/
def nodeMembers (file : SourceFile) (tagged : Std.HashMap String String) (id : NodeId) :
    List MemberDecl :=
  match p.node? id with
  | some (.methodDef receiver name _ _) =>
    ((p.receiverClass? tagged receiver).map fun cls =>
      declare file cls name (.method id) (p.offset id) (p.isTagged tagged receiver cls)).toList
  | some (.funcDef name _) => [declare file envWord name (.funcDef id) (p.offset id) false]
  | some (.assign targets values) =>
    targets.filterMap (targetMember? p file tagged) ++ tableMembers p file id values
  | some (.localDef _ values) => tableMembers p file id values
  | _ => []

def members (file : SourceFile) (tagged : Std.HashMap String String) (ix : Index) (id : NodeId) :
    Index :=
  (docFields p file id ++ nodeMembers p file tagged id).foldl Index.addMember ix

/-- What the comments of a program declare. -/
def ofTags : Collecting :=
  p.files.toList.foldl (fun c file => (p.preorder file).foldl (tags p file) c) {}

end Collecting

/-- The index of a program. -/
def Index.ofProgram (p : Program) : Index :=
  let tagged := Collecting.ofTags p
  p.files.toList.foldl (fun ix file =>
    (p.preorder file).foldl (Collecting.members p file tagged.taggedGlobals) ix) tagged.index

end LuaTypes
