import LuaTypes.Index.Decl
import LuaTypes.Ty.Bindings

/-!
Renaming cells. Which number a cell has means nothing: a type with its cells renamed is the same
type, and every operation on types commutes with renaming.
-/

namespace LuaTypes

/-- New numbers for cells. -/
abbrev CellMap := Nat → Nat

def DetailsSource.rename (ρ : CellMap) : DetailsSource → DetailsSource
  | .known d => .known d
  | .deferred cell => .deferred (ρ cell)

mutual

def Ty.rename (ρ : CellMap) : Ty → Ty
  | .unknown => .unknown
  | .invalid => .invalid
  | .prim p => .prim p
  | .cls c => .cls (c.rename ρ)
  | .union members => .union (Ty.renameAll ρ members)
  | .generic base args => .generic (base.rename ρ) (Ty.renameAll ρ args)
  | .func main overloads => .func (main.rename ρ) (Signature.renameAll ρ overloads)
  | .array element => .array (element.rename ρ)
  | .tuple items => .tuple (Ty.renameAll ρ items)
termination_by structural ty => ty

def ClassTy.rename (ρ : CellMap) : ClassTy → ClassTy
  | ⟨name, var, flags, origin, details⟩ =>
    ⟨name, var, flags, origin.rename ρ, details.rename ρ⟩
termination_by structural c => c

def Origin.rename (ρ : CellMap) : Origin → Origin
  | .named => .named
  | .literal file node count => .literal file node count
  | .docTable fields => .docTable (Field.renameAll ρ fields)
termination_by structural origin => origin

def Field.rename (ρ : CellMap) : Field → Field
  | ⟨name, ty⟩ => ⟨name, ty.rename ρ⟩
termination_by structural f => f

def Signature.rename (ρ : CellMap) : Signature → Signature
  | ⟨colon, params, vararg?, ret, typeParams⟩ =>
    ⟨colon, Field.renameAll ρ params, Ty.renameOption ρ vararg?, ret.rename ρ, typeParams⟩
termination_by structural sig => sig

def Ty.renameOption (ρ : CellMap) : Option Ty → Option Ty
  | none => none
  | some ty => some (ty.rename ρ)
termination_by structural ty? => ty?

def Ty.renameAll (ρ : CellMap) : List Ty → List Ty
  | [] => []
  | ty :: rest => ty.rename ρ :: Ty.renameAll ρ rest
termination_by structural types => types

def Field.renameAll (ρ : CellMap) : List Field → List Field
  | [] => []
  | f :: rest => f.rename ρ :: Field.renameAll ρ rest
termination_by structural fields => fields

def Signature.renameAll (ρ : CellMap) : List Signature → List Signature
  | [] => []
  | sig :: rest => sig.rename ρ :: Signature.renameAll ρ rest
termination_by structural sigs => sigs

end

variable (ρ : CellMap)

@[simp] theorem Ty.renameAll_eq_map (types : List Ty) :
    Ty.renameAll ρ types = types.map (Ty.rename ρ) := by
  induction types with
  | nil => rfl
  | cons ty rest ih => rw [Ty.renameAll, ih, List.map_cons]

@[simp] theorem Field.renameAll_eq_map (fields : List Field) :
    Field.renameAll ρ fields = fields.map (Field.rename ρ) := by
  induction fields with
  | nil => rfl
  | cons f rest ih => rw [Field.renameAll, ih, List.map_cons]

@[simp] theorem Signature.renameAll_eq_map (sigs : List Signature) :
    Signature.renameAll ρ sigs = sigs.map (Signature.rename ρ) := by
  induction sigs with
  | nil => rfl
  | cons sig rest ih => rw [Signature.renameAll, ih, List.map_cons]

@[simp] theorem Ty.renameOption_eq_map (ty? : Option Ty) :
    Ty.renameOption ρ ty? = ty?.map (Ty.rename ρ) := by
  cases ty? <;> rfl

namespace Ty

@[simp] theorem rename_unknown : Ty.unknown.rename ρ = .unknown := rfl
@[simp] theorem rename_invalid : Ty.invalid.rename ρ = .invalid := rfl
@[simp] theorem rename_prim (p : Prim) : (Ty.prim p).rename ρ = .prim p := rfl
@[simp] theorem rename_cls (c : ClassTy) : (Ty.cls c).rename ρ = .cls (c.rename ρ) := rfl

@[simp] theorem rename_union (members : List Ty) :
    (Ty.union members).rename ρ = .union (members.map (Ty.rename ρ)) := by
  rw [Ty.rename, renameAll_eq_map]

@[simp] theorem rename_generic (base : Ty) (args : List Ty) :
    (Ty.generic base args).rename ρ = .generic (base.rename ρ) (args.map (Ty.rename ρ)) := by
  rw [Ty.rename, renameAll_eq_map]

@[simp] theorem rename_func (main : Signature) (overloads : List Signature) :
    (Ty.func main overloads).rename ρ
      = .func (main.rename ρ) (overloads.map (Signature.rename ρ)) := by
  rw [Ty.rename, Signature.renameAll_eq_map]

@[simp] theorem rename_array (element : Ty) :
    (Ty.array element).rename ρ = .array (element.rename ρ) := rfl

@[simp] theorem rename_tuple (items : List Ty) :
    (Ty.tuple items).rename ρ = .tuple (items.map (Ty.rename ρ)) := by
  rw [Ty.rename, renameAll_eq_map]

end Ty

@[simp] theorem Field.rename_name (f : Field) : (f.rename ρ).name = f.name := by cases f; rfl
@[simp] theorem Field.rename_ty (f : Field) : (f.rename ρ).ty = f.ty.rename ρ := by cases f; rfl

namespace Signature

variable (sig : Signature)

@[simp] theorem rename_colon : (sig.rename ρ).colon = sig.colon := by cases sig; rfl

@[simp] theorem rename_params : (sig.rename ρ).params = sig.params.map (Field.rename ρ) := by
  cases sig
  exact Field.renameAll_eq_map ρ _

@[simp] theorem rename_vararg : (sig.rename ρ).vararg? = sig.vararg?.map (Ty.rename ρ) := by
  cases sig
  exact Ty.renameOption_eq_map ρ _

@[simp] theorem rename_ret : (sig.rename ρ).ret = sig.ret.rename ρ := by cases sig; rfl

@[simp] theorem rename_typeParams : (sig.rename ρ).typeParams = sig.typeParams := by
  cases sig; rfl

@[simp] theorem rename_isGeneric : (sig.rename ρ).isGeneric = sig.isGeneric := by
  rw [isGeneric, isGeneric, rename_typeParams]

end Signature

namespace ClassTy

variable (c : ClassTy)

@[simp] theorem rename_name : (c.rename ρ).name = c.name := by cases c; rfl
@[simp] theorem rename_flags : (c.rename ρ).flags = c.flags := by cases c; rfl
@[simp] theorem rename_origin : (c.rename ρ).origin = c.origin.rename ρ := by cases c; rfl

@[simp] theorem rename_details : (c.rename ρ).details = c.details.rename ρ := by
  cases c; rfl

@[simp] theorem rename_isGlobal : (c.rename ρ).isGlobal = c.isGlobal := by
  rw [isGlobal, isGlobal, rename_flags]

@[simp] theorem rename_isAnonymous : (c.rename ρ).isAnonymous = c.isAnonymous := by
  rw [isAnonymous, isAnonymous, rename_flags]

@[simp] theorem rename_isDocTable : (c.rename ρ).isDocTable = c.isDocTable := by
  obtain ⟨_, _, _, origin, _⟩ := c
  cases origin <;> rfl

@[simp] theorem rename_declared (name : String) (d : ClassDetails) :
    (declared name d).rename ρ = declared name d := rfl

@[simp] theorem rename_deferred (name : String) (cell : Nat) :
    (deferred name cell).rename ρ = deferred name (ρ cell) := rfl

@[simp] theorem rename_global (var : String) : (global var).rename ρ = global var := rfl

@[simp] theorem rename_globalNamed (var : String) (cell : Nat) :
    (globalNamed var cell).rename ρ = globalNamed var (ρ cell) := rfl

@[simp] theorem rename_anonymous (name var : String) :
    (anonymous name var).rename ρ = anonymous name var := rfl

@[simp] theorem rename_tableLiteral (path : String) (file node offset count : Nat) :
    (tableLiteral path file node offset count).rename ρ
      = tableLiteral path file node offset count := rfl

end ClassTy

/-! Renaming nothing. -/

mutual

theorem Ty.rename_id : ∀ ty : Ty, ty.rename (fun cell => cell) = ty
  | .unknown | .invalid | .prim _ => rfl
  | .cls c => by rw [Ty.rename_cls, ClassTy.rename_id c]
  | .union members => by rw [Ty.rename, Ty.renameAll_id members]
  | .generic base args => by rw [Ty.rename, Ty.rename_id base, Ty.renameAll_id args]
  | .func main overloads => by
    rw [Ty.rename, Signature.rename_id main, Signature.renameAll_id overloads]
  | .array element => by rw [Ty.rename_array, Ty.rename_id element]
  | .tuple items => by rw [Ty.rename, Ty.renameAll_id items]
termination_by structural ty => ty

theorem ClassTy.rename_id : ∀ c : ClassTy, c.rename (fun cell => cell) = c
  | ⟨_, _, _, origin, details⟩ => by
    rw [ClassTy.rename, Origin.rename_id origin]
    cases details <;> rfl
termination_by structural c => c

theorem Origin.rename_id : ∀ origin : Origin, origin.rename (fun cell => cell) = origin
  | .named | .literal .. => rfl
  | .docTable fields => by rw [Origin.rename, Field.renameAll_id fields]
termination_by structural origin => origin

theorem Field.rename_id : ∀ f : Field, f.rename (fun cell => cell) = f
  | ⟨_, ty⟩ => by rw [Field.rename, Ty.rename_id ty]
termination_by structural f => f

theorem Signature.rename_id : ∀ sig : Signature, sig.rename (fun cell => cell) = sig
  | ⟨_, params, vararg?, ret, _⟩ => by
    rw [Signature.rename, Field.renameAll_id params, Ty.renameOption_id vararg?, Ty.rename_id ret]
termination_by structural sig => sig

theorem Ty.renameOption_id :
    ∀ ty? : Option Ty, Ty.renameOption (fun cell => cell) ty? = ty?
  | none => rfl
  | some ty => by rw [Ty.renameOption, Ty.rename_id ty]
termination_by structural ty? => ty?

theorem Ty.renameAll_id : ∀ types : List Ty, Ty.renameAll (fun cell => cell) types = types
  | [] => rfl
  | ty :: rest => by rw [Ty.renameAll, Ty.rename_id ty, Ty.renameAll_id rest]
termination_by structural types => types

theorem Field.renameAll_id :
    ∀ fields : List Field, Field.renameAll (fun cell => cell) fields = fields
  | [] => rfl
  | f :: rest => by rw [Field.renameAll, Field.rename_id f, Field.renameAll_id rest]
termination_by structural fields => fields

theorem Signature.renameAll_id :
    ∀ sigs : List Signature, Signature.renameAll (fun cell => cell) sigs = sigs
  | [] => rfl
  | sig :: rest => by rw [Signature.renameAll, Signature.rename_id sig, Signature.renameAll_id rest]
termination_by structural sigs => sigs

end

end LuaTypes
