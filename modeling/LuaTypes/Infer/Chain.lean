import LuaTypes.Infer.Request

/-!
Member chains of classes, built from the index once for each class name of a request. The chains of
the superclasses are built on the way; a class that the walk has met already is left out, and below
the nesting limit a chain is empty.
-/

namespace LuaTypes

variable (env : Env)

/-- The members that a class value carries itself: the named fields of its table literal, or the
fields of its doc table. -/
def originMembers (c : ClassTy) : List MemberDecl :=
  match c.origin with
  | .named => []
  | .literal file node _ =>
    (env.program.namedFields node).map fun (field, name) =>
      ⟨name, c.name, .tableField field, file, env.program.offset field,
        (env.program.file? file).any (·.stdLib), false⟩
  | .docTable fields =>
    fields.zipIdx.map fun (f, position) =>
      ⟨f.name, c.name, .docTableField f.ty, maxWord32, position, false, false⟩

/-- Adds the members of a class to its chain: those that it carries, those indexed under its name,
and those indexed under its other names. -/
def fillChain (chain : MemberChain MemberDecl) (aliases : List String) : MemberChain MemberDecl :=
  let chain := (originMembers env chain.cls).foldl (·.add · false) chain
  let chain := (env.index.classMembers chain.cls.name).foldl (fun ch d => ch.add d d.authoritative)
    chain
  (aliases.flatMap env.index.classMembers).foldl (·.add · false) chain

/-- A computation that remembers which class names the walk has met. -/
abbrev Chaining := StateT (List String) Infer

def enterChain : Infer Bool :=
  modifyGet fun s =>
    let (ok, chainDepth) := s.chainDepth.enter
    (ok, { s with chainDepth })

def leaveChain : Infer Unit := modify fun s => { s with chainDepth := s.chainDepth.leave }

/-- Builds the chains of those classes that the walk has not met. -/
def buildSupers (build : ClassTy → Chaining (MemberChain MemberDecl)) :
    List ClassTy → Chaining (List (MemberChain MemberDecl))
  | [] => return []
  | c :: rest => do
    if c.name ∈ (← get) then buildSupers build rest
    else return (← build c) :: (← buildSupers build rest)

/-- The chain of a class, where `build` makes those of its superclasses. -/
def chainOf (build : ClassTy → Chaining (MemberChain MemberDecl)) (c : ClassTy) :
    Chaining (MemberChain MemberDecl) := do
  let super? ← Infer.read (c.super? env.resolver)
  let supers ←
    (if env.cancelled then pure [] else buildSupers build (super?.elim [] Ty.classes))
  let aliases ← Infer.read (c.aliasNames env.resolver env.settings.globalsAreTypes)
  return fillChain env (.new c supers) aliases

/-- Builds the chain of a class, `room` levels deep at most. -/
def buildChain (room : Nat) (c : ClassTy) : Chaining (MemberChain MemberDecl) :=
  match room with
  | 0 => return .new c []
  | room + 1 => do
    modify (c.name :: ·)
    if !(← enterChain) then return .new c []
    let chain ← chainOf env (buildChain room) c
    leaveChain
    return chain

/-- The member chain of a class. -/
def memberChain (c : ClassTy) : Infer (MemberChain MemberDecl) := do
  match (← get).chains[c.name]? with
  | some chain => return chain
  | none =>
    let (chain, _) ← (buildChain env (maxChainDepth + 1) c).run []
    modify fun s => { s with chains := s.chains.insert c.name chain }
    return chain

/-- The declaration that a member name means on a class. -/
def findMember (c : ClassTy) (name : String) : Infer (Option MemberDecl) :=
  return (← memberChain env c).find? name

/-- The declaration that a class inherits for a member name. -/
def findSuperMember (c : ClassTy) (name : String) : Infer (Option MemberDecl) :=
  return (← memberChain env c).findSuper? name

/-- The members of a class in the order in which a visitor is offered them. -/
def listMembers (c : ClassTy) (deep : Bool) : Infer (List (MemberChain.Entry MemberDecl)) :=
  return (← memberChain env c).entries deep

end LuaTypes
