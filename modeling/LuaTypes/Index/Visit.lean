import LuaTypes.Index.Basic

/-!
Visits to the declarations of a member, and to all declarations of a class. A deep visit keeps the
class names that it has processed, so that no declaration is offered again where the alias name of a
class is also the name of a superclass. A visit to all declarations of a class puts off those that
only extend the class.
-/

namespace LuaTypes.Index

variable (ix : Index) {m : Type → Type} [Monad m] (visitor : MemberDecl → m Flow)

/-- Offers the declarations of a member under one class name. -/
def visitOwn (cls member : String) : m Flow := offer visitor (ix.ownDecls cls member)

/-- Offers the declarations under a class name that is not processed yet, and takes note of it. -/
def visitNew (member cls : String) : StateT (List String) m Flow := do
  if cls ∈ (← get) then return .next
  modify (cls :: ·)
  (ix.visitOwn visitor cls member : m Flow)

/-- Offers the declarations of a member on a class, on its alias, and on its superclasses. -/
def visitDeep (cls member : String) : StateT (List String) m Flow := do
  match ← ix.visitNew visitor member cls with
  | .stop => return .stop
  | .next =>
    match ix.findClass? cls with
    | none => return .next
    | some d =>
      match ← d.details.alias?.elim (pure .next) (ix.visitNew visitor member) with
      | .stop => return .stop
      | .next =>
        let start := ClassTy.declared cls d.details
        (start.visitAncestors (ix.resolver false) (pure false)
          fun super => ix.visitNew visitor member super.name).run' {}

/-- Offers what a look-up finds, until the visitor stops. -/
def visitExact (cls member : String) (deep : Bool) : m Flow :=
  if !ix.ready then return .next
  else if deep then (ix.visitDeep visitor cls member).run' []
  else ix.visitOwn visitor cls member

/-- Offers a declaration if it defines its class, and puts it off if it does not. -/
def visitDefining (d : MemberDecl) : StateT (Array MemberDecl) m Flow := do
  if d.isDefining then (visitor d : m Flow)
  else
    modify (·.push d)
    return .next

/-- Offers all declarations of a class until the visitor stops. Those of the standard library come
before those of the project, and behind them come the extensions that were put off. -/
def visitWildcard (cls : String) : m Flow := do
  if !ix.ready then return .next
  let (stdLib, project) := (ix.membersOf cls).partition (·.stdLib)
  match ← (offer (visitDefining visitor) (stdLib ++ project)).run #[] with
  | (.stop, _) => return .stop
  | (.next, extensions) => offer visitor extensions.toList

end LuaTypes.Index
