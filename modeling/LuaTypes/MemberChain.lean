import LuaTypes.OrderedMap
import LuaTypes.Ty.Basic

/-!
Member chains. A chain holds the members of one class and a chain for each direct superclass.

A declaration that a superclass has already must be worth more than the inherited one, or as much
and more than a plain assignment. Among declarations of one class the first keeps its name unless a
later one is worth more. An authoritative declaration takes the name from any that is not, and of
two authoritative ones in one file the later wins.
-/

namespace LuaTypes

/-- A plain assignment to a field. -/
def worthAssign : Nat := 10

/-- A field of a table literal. -/
def worthTableField : Nat := 20

def worthMethod : Nat := 30

def worthDocField : Nat := 30

/-- What a chain asks of its members. -/
class ChainMember (μ : Type) where
  name : μ → String
  worth : μ → Nat
  file : μ → Nat
  offset : μ → Nat

structure MemberChain (μ : Type) where
  cls : ClassTy
  supers : List (MemberChain μ)
  own : OrderedMap μ
  /-- Names that an authoritative declaration has claimed. -/
  claimed : List String

namespace MemberChain

variable {μ : Type}

/-- A chain without members of its own. -/
def new (cls : ClassTy) (supers : List (MemberChain μ)) : MemberChain μ := ⟨cls, supers, {}, []⟩

def size (chain : MemberChain μ) : Nat := chain.own.size

mutual

/-- The member that a name means: an own one, else the first that a superclass has. -/
def find? : MemberChain μ → String → Option μ
  | ⟨_, supers, own, _⟩, name => own.get? name <|> findFirst? supers name
termination_by structural chain => chain

/-- The first member of a name among several chains. -/
def findFirst? : List (MemberChain μ) → String → Option μ
  | [], _ => none
  | chain :: rest, name => chain.find? name <|> findFirst? rest name
termination_by structural chains => chains

end

/-- The member that the superclasses have for a name. -/
def findSuper? (chain : MemberChain μ) (name : String) : Option μ := findFirst? chain.supers name

/-- Whether a declaration may stand before one that a superclass has. -/
def mayOverride (worth inherited : Nat) : Bool :=
  inherited < worth || (worth == inherited && worthAssign < worth)

variable [ChainMember μ]

/-- Whether a declaration takes the place of an earlier one of the same class. -/
def replaces (member old : μ) (authoritative claimed : Bool) : Bool :=
  if !authoritative then ChainMember.worth old < ChainMember.worth member
  else !claimed || ChainMember.worth old < ChainMember.worth member
    || (ChainMember.file old == ChainMember.file member
      && ChainMember.offset old < ChainMember.offset member)

/-- Adds a declaration, if the override rule lets it in. -/
def add (chain : MemberChain μ) (member : μ) (authoritative : Bool) : MemberChain μ :=
  let name := ChainMember.name member
  let overrides := (chain.findSuper? name).all fun inherited =>
    mayOverride (ChainMember.worth member) (ChainMember.worth inherited)
  if !overrides then chain
  else
    let wins := (chain.own.get? name).all fun old =>
      replaces member old authoritative (chain.claimed.contains name)
    { chain with
      own := if wins then chain.own.insert name member else chain.own
      claimed := if authoritative then name :: chain.claimed else chain.claimed }

/-- A member together with the class that holds it. -/
structure Entry (μ : Type) where
  cls : ClassTy
  name : String
  member : μ

def ownEntries (chain : MemberChain μ) : List (Entry μ) :=
  chain.own.entries.map fun (name, member) => ⟨chain.cls, name, member⟩

mutual

/-- Every member of the chain and of the chains below it, overridden ones included. -/
def allEntries : MemberChain μ → List (Entry μ)
  | ⟨cls, supers, own, _⟩ =>
    (own.entries.map fun (name, member) => ⟨cls, name, member⟩) ++ entriesOfAll supers
termination_by structural chain => chain

def entriesOfAll : List (MemberChain μ) → List (Entry μ)
  | [] => []
  | chain :: rest => chain.allEntries ++ entriesOfAll rest
termination_by structural chains => chains

end

/-- The first entry of each name. -/
def firstOfEachName (seen : List String) : List (Entry μ) → List (Entry μ)
  | [] => []
  | e :: rest =>
    if e.name ∈ seen then firstOfEachName seen rest
    else e :: firstOfEachName (e.name :: seen) rest

/-- The members in the order of a listing: own ones, and then, if the listing is deep, inherited
ones that nothing overrides. -/
def entries (chain : MemberChain μ) (deep : Bool) : List (Entry μ) :=
  firstOfEachName [] (if deep then chain.allEntries else chain.ownEntries)

end MemberChain

end LuaTypes
