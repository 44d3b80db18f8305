import Std.Data.HashMap
import LuaTypes.Class.Ancestry
import LuaTypes.Index.Decl
import LuaTypes.Ty.Weight

/-!
The index of a program: its classes, aliases and members by name. While it is not ready it answers
every question with nothing.
-/

namespace LuaTypes

structure Index where
  classes : Std.HashMap String ClassDecl := {}
  aliases : Std.HashMap String AliasDecl := {}
  /-- The members of each class in the order of indexing. -/
  members : Std.HashMap String (Array MemberDecl) := {}
  /-- The class nodes of all alias targets together. -/
  aliasWeight : Nat := 0
  ready : Bool := true

namespace Index

/-- Adds a class unless the name is taken. -/
def addClass (ix : Index) (d : ClassDecl) : Index :=
  { ix with classes := ix.classes.insertIfNew d.name d }

/-- Adds an alias unless the name is taken. -/
def addAlias (ix : Index) (d : AliasDecl) : Index :=
  if ix.aliases.contains d.name then ix
  else { ix with
    aliases := ix.aliases.insert d.name d
    aliasWeight := ix.aliasWeight + d.target.classNodes }

def addMember (ix : Index) (d : MemberDecl) : Index :=
  { ix with members := ix.members.insert d.className ((ix.members.getD d.className #[]).push d) }

def classCount (ix : Index) : Nat := ix.classes.size

def memberCount (ix : Index) : Nat := ix.members.fold (fun n _ ds => n + ds.size) 0

def findClass? (ix : Index) (name : String) : Option ClassDecl :=
  if ix.ready then ix.classes[name]? else none

def findAlias? (ix : Index) (name : String) : Option AliasDecl :=
  if ix.ready then ix.aliases[name]? else none

/-- The members of a class in the order of indexing. -/
def membersOf (ix : Index) (cls : String) : List MemberDecl := (ix.members.getD cls #[]).toList

def hasMembers (ix : Index) (cls : String) : Bool := ix.ready && !(ix.membersOf cls).isEmpty

/-- The view that lazy classes are resolved through. -/
def resolver (ix : Index) (cancelled : Bool) : Resolver where
  details? name := (ix.findClass? name).map (·.details)
  alias? name := (ix.findAlias? name).map (·.target)
  aliasWeight := ix.aliasWeight
  ready := ix.ready
  cancelled := cancelled

/-- The declarations of a member under one class name. -/
def ownDecls (ix : Index) (cls member : String) : List MemberDecl :=
  (ix.membersOf cls).filter (·.name == member)

/-- The classes that a deep look-up goes through after the class itself: its alias name, and then
its superclasses in the order of the walk. -/
def lookupPath (ix : Index) (cls : String) : List String :=
  match ix.findClass? cls with
  | none => []
  | some d =>
    let r := ix.resolver false
    let ancestors := (ancestorsFrom r [cls] (r.superClasses d.details)).map (·.name)
    match d.details.alias? with
    | some other => if other = cls then ancestors else other :: ancestors.filter (· != other)
    | none => ancestors

/-- The declarations of a member on a class, and if the look-up is deep, on its alias and its
superclasses. -/
def exact (ix : Index) (cls member : String) (deep : Bool) : List MemberDecl :=
  if !ix.ready then []
  else ix.ownDecls cls member
    ++ if deep then (ix.lookupPath cls).flatMap (ix.ownDecls · member) else []

/-- All members of a class: definitions before extensions, and within each the standard library
before the project. -/
def classMembers (ix : Index) (cls : String) : List MemberDecl :=
  if !ix.ready then []
  else
    let all := ix.membersOf cls
    let ordered := all.filter (·.stdLib) ++ all.filter (!·.stdLib)
    ordered.filter (·.isDefining) ++ ordered.filter (!·.isDefining)

end Index

end LuaTypes
