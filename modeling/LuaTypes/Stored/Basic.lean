import LuaTypes.Class.Memo
import LuaTypes.Ty.Union

/-!
Stored types: what is kept of a type between runs. A class keeps its name, its variable, its flags
and the details known so far; a table literal does not keep where it came from.
-/

namespace LuaTypes

/-- What is kept of a class. -/
structure ClassStub where
  className : String
  generics : List String := []
  varName : String
  supers : List String := []
  alias? : Option String := none
  /-- All eight bits as they were read. -/
  flags : Nat := 0
  deriving DecidableEq

namespace ClassStub

def details (s : ClassStub) : ClassDetails := ⟨s.generics, s.supers, s.alias?⟩

/-- Details that are not known yet are kept as empty ones. -/
def ofClass (memo : ClassMemo) (c : ClassTy) : ClassStub :=
  let d := (c.resolved? memo).getD {}
  ⟨c.name, d.generics, c.varName, d.supers, d.alias?, c.flags.bits⟩

/-- Without details and without flags the class may be declared later, so its details are left to
be read on first use. -/
def toClass (s : ClassStub) : Reading ClassTy := do
  let flags := ClassFlags.ofBits s.flags
  let details ←
    if s.details = {} && flags.isEmpty then .deferred <$> freshCell
    else pure (DetailsSource.known s.details)
  return ⟨s.className, s.varName, flags, .named, details⟩

end ClassStub

mutual

inductive StoredTy
  | unknown | invalid
  /-- Any name may stand here; one that names no primitive type reads as unknown. -/
  | prim (name : String)
  | cls (stub : ClassStub)
  | docTable (name : String) (fields : List StoredField)
  | union (members : List StoredTy)
  | generic (base : StoredTy) (args : List StoredTy)
  | func (main : StoredSignature) (overloads : List StoredSignature)
  | array (element : StoredTy)
  | tuple (items : List StoredTy)

structure StoredField where
  name : String
  ty : StoredTy

structure StoredSignature where
  colon : Bool
  params : List StoredField
  vararg? : Option StoredTy
  ret : StoredTy
  typeParams : List TypeParam

end

instance : Inhabited StoredTy := ⟨.unknown⟩

mutual

/-- Equality part by part. -/
def StoredTy.same : StoredTy → StoredTy → Bool
  | .unknown, .unknown | .invalid, .invalid => true
  | .prim n, .prim m => n == m
  | .cls s, .cls t => s == t
  | .docTable n fs, .docTable m gs => n == m && StoredField.allSame fs gs
  | .union ms, .union ns => StoredTy.allSame ms ns
  | .generic b as, .generic c bs => b.same c && StoredTy.allSame as bs
  | .func m os, .func n ps => m.same n && StoredSignature.allSame os ps
  | .array a, .array b => a.same b
  | .tuple as, .tuple bs => StoredTy.allSame as bs
  | _, _ => false
termination_by structural ty => ty

def StoredTy.allSame : List StoredTy → List StoredTy → Bool
  | [], [] => true
  | a :: as, b :: bs => a.same b && StoredTy.allSame as bs
  | _, _ => false
termination_by structural as => as

def StoredSignature.same : StoredSignature → StoredSignature → Bool
  | ⟨c, ps, none, r, ts⟩, ⟨d, qs, none, s, us⟩ =>
    c == d && StoredField.allSame ps qs && r.same s && ts == us
  | ⟨c, ps, some v, r, ts⟩, ⟨d, qs, some w, s, us⟩ =>
    c == d && StoredField.allSame ps qs && v.same w && r.same s && ts == us
  | _, _ => false
termination_by structural sig => sig

def StoredSignature.allSame : List StoredSignature → List StoredSignature → Bool
  | [], [] => true
  | a :: as, b :: bs => a.same b && StoredSignature.allSame as bs
  | _, _ => false
termination_by structural as => as

def StoredField.allSame : List StoredField → List StoredField → Bool
  | [], [] => true
  | ⟨n, t⟩ :: as, ⟨m, u⟩ :: bs => n == m && t.same u && StoredField.allSame as bs
  | _, _ => false
termination_by structural as => as

end

instance : BEq StoredTy := ⟨StoredTy.same⟩

mutual

/-- Stores a type with the class details known so far. -/
def StoredTy.ofTy (memo : ClassMemo) : Ty → StoredTy
  | .unknown => .unknown
  | .invalid => .invalid
  | .prim p => .prim p.name
  | .cls c => StoredTy.ofClass memo c
  | .union members => .union (StoredTy.ofTys memo members)
  | .generic base args => .generic (StoredTy.ofTy memo base) (StoredTy.ofTys memo args)
  | .func main overloads =>
    .func (StoredSignature.ofSignature memo main) (StoredSignature.ofSignatures memo overloads)
  | .array element => .array (StoredTy.ofTy memo element)
  | .tuple items => .tuple (StoredTy.ofTys memo items)
termination_by structural ty => ty

def StoredTy.ofClass (memo : ClassMemo) : ClassTy → StoredTy
  | ⟨name, _, _, .docTable fields, _⟩ => .docTable name (StoredField.ofFields memo fields)
  | c => .cls (.ofClass memo c)
termination_by structural c => c

def StoredTy.ofTys (memo : ClassMemo) : List Ty → List StoredTy
  | [] => []
  | ty :: rest => StoredTy.ofTy memo ty :: StoredTy.ofTys memo rest
termination_by structural types => types

def StoredField.ofFields (memo : ClassMemo) : List Field → List StoredField
  | [] => []
  | ⟨name, ty⟩ :: rest => ⟨name, StoredTy.ofTy memo ty⟩ :: StoredField.ofFields memo rest
termination_by structural fields => fields

def StoredSignature.ofSignature (memo : ClassMemo) : Signature → StoredSignature
  | ⟨colon, params, none, ret, typeParams⟩ =>
    ⟨colon, StoredField.ofFields memo params, none, StoredTy.ofTy memo ret, typeParams⟩
  | ⟨colon, params, some vararg, ret, typeParams⟩ =>
    ⟨colon, StoredField.ofFields memo params, some (StoredTy.ofTy memo vararg),
      StoredTy.ofTy memo ret, typeParams⟩
termination_by structural sig => sig

def StoredSignature.ofSignatures (memo : ClassMemo) : List Signature → List StoredSignature
  | [] => []
  | sig :: rest =>
    StoredSignature.ofSignature memo sig :: StoredSignature.ofSignatures memo rest
termination_by structural sigs => sigs

end

mutual

/-- Restores a type. Unions are formed anew. -/
def StoredTy.toTy : StoredTy → Reading Ty
  | .unknown => return .unknown
  | .invalid => return .invalid
  | .prim name => return ((Prim.ofName? name).map Ty.prim).getD .unknown
  | .cls stub => return .cls (← stub.toClass)
  | .docTable name fields => return .cls (.docTable name (← StoredField.toFields fields))
  | .union members => return .unionAll (← StoredTy.toTys members)
  | .generic base args => return .generic (← base.toTy) (← StoredTy.toTys args)
  | .func main overloads =>
    return .func (← main.toSignature) (← StoredSignature.toSignatures overloads)
  | .array element => return .array (← element.toTy)
  | .tuple items => return .tuple (← StoredTy.toTys items)
termination_by structural ty => ty

def StoredTy.toTys : List StoredTy → Reading (List Ty)
  | [] => return []
  | ty :: rest => return (← ty.toTy) :: (← StoredTy.toTys rest)
termination_by structural types => types

def StoredField.toFields : List StoredField → Reading (List Field)
  | [] => return []
  | ⟨name, ty⟩ :: rest => return ⟨name, ← ty.toTy⟩ :: (← StoredField.toFields rest)
termination_by structural fields => fields

def StoredSignature.toSignature : StoredSignature → Reading Signature
  | ⟨colon, params, none, ret, typeParams⟩ =>
    return ⟨colon, ← StoredField.toFields params, none, ← ret.toTy, typeParams⟩
  | ⟨colon, params, some vararg, ret, typeParams⟩ =>
    return ⟨colon, ← StoredField.toFields params, some (← vararg.toTy), ← ret.toTy, typeParams⟩
termination_by structural sig => sig

def StoredSignature.toSignatures : List StoredSignature → Reading (List Signature)
  | [] => return []
  | sig :: rest => return (← sig.toSignature) :: (← StoredSignature.toSignatures rest)
termination_by structural sigs => sigs

end

end LuaTypes
