import LuaTypes.Words

/-!
Types: nominal classes, unions, generics, functions, arrays and tuples, with two sentinels for
"nothing is known".

A class value carries its name and flags, where it came from, and its declared relationships, which
are either known from the start or read later, once, into a numbered cell (see the class memo).
Two values share a cell exactly when one is a copy of the other.
-/

namespace LuaTypes

inductive Prim
  | boolean | number | string | nil | void
  deriving DecidableEq

def Prim.name : Prim → String
  | .boolean => "boolean"
  | .number => "number"
  | .string => "string"
  | .nil => "nil"
  | .void => "void"

def Prim.ofName? : String → Option Prim
  | "boolean" => some .boolean
  | "number" => some .number
  | "string" => some .string
  | "nil" => some .nil
  | "void" => some .void
  | _ => none

/-- What a class declares: type parameter names, superclass names, and another name for itself. -/
structure ClassDetails where
  generics : List String := []
  supers : List String := []
  alias? : Option String := none
  deriving DecidableEq

structure ClassFlags where
  /-- The synthetic class of a global. -/
  global : Bool := false
  /-- The synthetic class of a local. -/
  anonymous : Bool := false
  /-- The class of a table literal. -/
  anonymousTable : Bool := false
  deriving DecidableEq

namespace ClassFlags

def bits (f : ClassFlags) : Nat :=
  f.global.toNat + 2 * f.anonymous.toNat + 4 * f.anonymousTable.toNat

/-- Only the three low bits have a meaning. -/
def ofBits (n : Nat) : ClassFlags :=
  ⟨n.testBit 0, n.testBit 1, n.testBit 2⟩

@[simp] theorem ofBits_bits (f : ClassFlags) : ofBits f.bits = f := by
  obtain ⟨a, b, c⟩ := f
  cases a <;> cases b <;> cases c <;> rfl

def isEmpty (f : ClassFlags) : Bool :=
  !f.global && !f.anonymous && !f.anonymousTable

end ClassFlags

/-- Where the details of a class value come from. -/
inductive DetailsSource
  /-- Given when the value was made. -/
  | known (details : ClassDetails)
  /-- Read on first use and kept in this cell. -/
  | deferred (cell : Nat)

/-- A declared type parameter, with an optional upper bound. -/
structure TypeParam where
  name : String
  bound? : Option String := none
  deriving DecidableEq

mutual

inductive Ty
  /-- Nothing could be derived. -/
  | unknown
  | invalid
  | prim (p : Prim)
  | cls (c : ClassTy)
  | union (members : List Ty)
  | generic (base : Ty) (args : List Ty)
  | func (main : Signature) (overloads : List Signature)
  | array (element : Ty)
  /-- The values of a multi-value return. -/
  | tuple (items : List Ty)

structure ClassTy where
  name : String
  /-- The variable shown in place of the name for globals and locals. -/
  varName : String
  flags : ClassFlags
  origin : Origin
  details : DetailsSource

inductive Origin
  | named
  /-- A table literal: its file, its node and how many fields it has. -/
  | literal (file node fieldCount : Nat)
  /-- An inline doc table. -/
  | docTable (fields : List Field)

/-- A name with its type: a parameter or a field. -/
structure Field where
  name : String
  ty : Ty

structure Signature where
  /-- Declared with a colon, so that the receiver is not among the parameters. -/
  colon : Bool
  params : List Field
  vararg? : Option Ty
  ret : Ty
  typeParams : List TypeParam

end

instance : Inhabited Ty := ⟨.unknown⟩

namespace Ty

def boolean : Ty := .prim .boolean
def number : Ty := .prim .number
def string : Ty := .prim .string
def nil : Ty := .prim .nil
def void : Ty := .prim .void

/-- A sentinel: no information was derived. The types of `nil` and of no value are not sentinels. -/
def isInvalid : Ty → Bool
  | .unknown | .invalid => true
  | _ => false

def isUnknown : Ty → Bool
  | .unknown => true
  | _ => false

def isPrimitive : Ty → Bool
  | .prim _ => true
  | _ => false

def isFunction : Ty → Bool
  | .func .. => true
  | _ => false

def asClass? : Ty → Option ClassTy
  | .cls c => some c
  | _ => none

/-- The members of a union, and any other type as its own only member. -/
def each : Ty → List Ty
  | .union members => members
  | ty => [ty]

def classes (ty : Ty) : List ClassTy := ty.each.filterMap asClass?

/-- The classes at the top: class members, and the base classes of generic members. -/
def topClasses (ty : Ty) : List ClassTy :=
  ty.each.filterMap fun
    | .cls c => some c
    | .generic base _ => base.asClass?
    | _ => none

/-- The value of a tuple at a position, else its first value; any other type stands for itself. -/
def valueAt (ty : Ty) (index : Nat) : Ty :=
  match ty with
  | .tuple items => (items[index]? <|> items.head?).getD .unknown
  | ty => ty

end Ty

/-- A type argument, unknown where there is none. -/
def typeArg (args : List Ty) (index : Nat) : Ty := args[index]?.getD .unknown

namespace Signature

def isGeneric (sig : Signature) : Bool := !sig.typeParams.isEmpty

/-- Rewrites the parameter types, the vararg type and the return type, in this order. -/
def mapTypesM {m : Type → Type} [Monad m] (f : Ty → m Ty) (sig : Signature) : m Signature := do
  let params ← sig.params.mapM fun p => do return ⟨p.name, ← f p.ty⟩
  let vararg? ← match sig.vararg? with
    | some v => some <$> f v
    | none => pure none
  return { sig with params, vararg?, ret := ← f sig.ret }

end Signature

namespace ClassTy

def isGlobal (c : ClassTy) : Bool := c.flags.global

def isAnonymous (c : ClassTy) : Bool := c.flags.anonymous

def isTableLiteral (c : ClassTy) : Bool :=
  match c.origin with
  | .literal .. => true
  | _ => false

def isDocTable (c : ClassTy) : Bool :=
  match c.origin with
  | .docTable _ => true
  | _ => false

/-- The class that accepts every class and every array. -/
def isUniversalTable (c : ClassTy) : Bool := c.name == tableWord && c.flags.isEmpty

/-- A class at its declaration, details known. -/
def declared (name : String) (details : ClassDetails) : ClassTy :=
  ⟨name, name, {}, .named, .known details⟩

/-- A class met by name, whose details are read into a cell on first use. -/
def deferred (name : String) (cell : Nat) : ClassTy :=
  ⟨name, name, {}, .named, .deferred cell⟩

def universalTable : ClassTy := declared tableWord {}

/-- The class that stores the fields of a global. -/
def global (var : String) : ClassTy :=
  ⟨globalClassName var, var, { global := true }, .named, .known {}⟩

/-- The class spelled like a global, where globals double as types. -/
def globalNamed (var : String) (cell : Nat) : ClassTy :=
  ⟨var, var, { global := true }, .named, .deferred cell⟩

/-- The synthetic class of a local. -/
def anonymous (name var : String) : ClassTy :=
  ⟨name, var, { anonymous := true }, .named, .known {}⟩

/-- The class of a table literal. -/
def tableLiteral (path : String) (file node offset fieldCount : Nat) : ClassTy :=
  ⟨tableClassName path offset, "", { anonymous := true, anonymousTable := true },
    .literal file node fieldCount, .known {}⟩

def docTable (name : String) (fields : List Field) : ClassTy :=
  ⟨name, "", {}, .docTable fields, .known {}⟩

end ClassTy

def Ty.table : Ty := .cls .universalTable

/-- The type that a name has without any declaration. -/
def builtin? (name : String) : Option Ty :=
  match Prim.ofName? name with
  | some p => some (.prim p)
  | none => if name = tableWord then some .table else none

end LuaTypes
