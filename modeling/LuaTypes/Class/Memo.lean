import Std.Data.HashMap
import LuaTypes.Ty.Basic

/-!
Details of classes, read on first use.

A class that a doc comment names before its declaration is indexed holds a cell instead of details.
The memo says which cells have been read, and for which class: a cell belongs to the class of one
name. A cell is written at most once, and never through a resolver that is not ready: until then the
class reads as undeclared.
-/

namespace LuaTypes

/-- A read-only view of the declared classes and aliases. -/
structure Resolver where
  details? : String → Option ClassDetails
  /-- The target of an alias. -/
  alias? : String → Option Ty
  /-- How many class nodes the alias targets hold together, which bounds how deep the expansion of
  aliases nests. -/
  aliasWeight : Nat
  /-- One that is not ready answers nothing, and its silence is not kept. -/
  ready : Bool
  /-- Asks walks to end early. -/
  cancelled : Bool

/-- The resolver that knows no class. -/
def Resolver.empty : Resolver := ⟨fun _ => none, fun _ => none, 0, true, false⟩

structure ClassMemo where
  /-- The first unused cell. -/
  next : Nat := 0
  read : Std.HashMap (String × Nat) ClassDetails := {}

/-- A computation that may read class details. -/
abbrev Reading := StateM ClassMemo

/-- A cell that no class holds yet. -/
def freshCell : Reading Nat :=
  modifyGet fun memo => (memo.next, { memo with next := memo.next + 1 })

/-- A new class value met by name. -/
def newClass (name : String) : Reading ClassTy := return .deferred name (← freshCell)

namespace ClassTy

/-- The details, if they are known already. -/
def resolved? (memo : ClassMemo) (c : ClassTy) : Option ClassDetails :=
  match c.details with
  | .known d => some d
  | .deferred cell => memo.read[(c.name, cell)]?

/-- The details, read through the resolver if they are not known. A class that a ready resolver
does not know has empty details from then on. -/
def readDetails (r : Resolver) (c : ClassTy) : Reading ClassDetails := fun memo =>
  match c.details with
  | .known d => (d, memo)
  | .deferred cell =>
    match memo.read[(c.name, cell)]? with
    | some d => (d, memo)
    | none =>
      if r.ready then
        let d := (r.details? c.name).getD {}
        (d, { memo with read := memo.read.insert (c.name, cell) d })
      else ({}, memo)

def generics (r : Resolver) (c : ClassTy) : Reading (List String) :=
  return (← c.readDetails r).generics

def supers (r : Resolver) (c : ClassTy) : Reading (List String) :=
  return (← c.readDetails r).supers

def alias? (r : Resolver) (c : ClassTy) : Reading (Option String) :=
  return (← c.readDetails r).alias?

/-- The names whose members also belong to the class: its alias, if that is another name, and
then, where globals double as types, the class of the global spelled like it. -/
def aliasNames (r : Resolver) (globalsAreTypes : Bool) (c : ClassTy) : Reading (List String) := do
  match ← c.alias? r with
  | none => return []
  | some other =>
    if other = c.name then return []
    else if !c.isGlobal && !c.isAnonymous && globalsAreTypes then
      return [other, globalClassName c.name]
    else return [other]

end ClassTy

end LuaTypes
