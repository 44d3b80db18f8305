import LuaTypes.Stored.Basic

/-!
What is kept of a type when it is stored. Where a table literal came from is lost, and details that
are not known become empty ones. What is left decides which types a type equals, and how it is
stored.
-/

namespace LuaTypes

/-- The details of a class that are known, empty ones if it has not been read. -/
def ClassMemo.known (memo : ClassMemo) (c : ClassTy) : ClassDetails := (c.resolved? memo).getD {}

theorem ClassMemo.known_congr {memo memo' : ClassMemo} (h : memo'.read = memo.read) :
    memo'.known = memo.known := by
  funext c
  rw [known, known, ClassTy.resolved?, ClassTy.resolved?, h]

mutual

/-- What is kept of a type, if this is what is known of the classes in it. -/
def Ty.kept (known : ClassTy → ClassDetails) : Ty → Ty
  | .unknown => .unknown
  | .invalid => .invalid
  | .prim p => .prim p
  | .cls c => .cls (c.kept known)
  | .union members => .union (Ty.keptAll known members)
  | .generic base args => .generic (base.kept known) (Ty.keptAll known args)
  | .func main overloads => .func (main.kept known) (Signature.keptAll known overloads)
  | .array element => .array (element.kept known)
  | .tuple items => .tuple (Ty.keptAll known items)
termination_by structural ty => ty

def ClassTy.kept (known : ClassTy → ClassDetails) : ClassTy → ClassTy
  | ⟨name, var, flags, .docTable fields, details⟩ =>
    ⟨name, var, flags, .docTable (Field.keptAll known fields),
      .known (known ⟨name, var, flags, .docTable fields, details⟩)⟩
  | c => ⟨c.name, c.varName, c.flags, .named, .known (known c)⟩
termination_by structural c => c

def Field.kept (known : ClassTy → ClassDetails) : Field → Field
  | ⟨name, ty⟩ => ⟨name, ty.kept known⟩
termination_by structural f => f

def Signature.kept (known : ClassTy → ClassDetails) : Signature → Signature
  | ⟨colon, params, vararg?, ret, typeParams⟩ =>
    ⟨colon, Field.keptAll known params, Ty.keptOption known vararg?, ret.kept known, typeParams⟩
termination_by structural sig => sig

def Ty.keptOption (known : ClassTy → ClassDetails) : Option Ty → Option Ty
  | none => none
  | some ty => some (ty.kept known)
termination_by structural ty? => ty?

def Ty.keptAll (known : ClassTy → ClassDetails) : List Ty → List Ty
  | [] => []
  | ty :: rest => ty.kept known :: Ty.keptAll known rest
termination_by structural types => types

def Field.keptAll (known : ClassTy → ClassDetails) : List Field → List Field
  | [] => []
  | f :: rest => f.kept known :: Field.keptAll known rest
termination_by structural fields => fields

def Signature.keptAll (known : ClassTy → ClassDetails) : List Signature → List Signature
  | [] => []
  | sig :: rest => sig.kept known :: Signature.keptAll known rest
termination_by structural sigs => sigs

end

section

variable (known : ClassTy → ClassDetails)

theorem Ty.keptAll_eq_map (types : List Ty) :
    Ty.keptAll known types = types.map (Ty.kept known) := by
  induction types with
  | nil => rfl
  | cons ty rest ih => rw [Ty.keptAll, ih, List.map_cons]

theorem Field.keptAll_eq_map (fields : List Field) :
    Field.keptAll known fields = fields.map (Field.kept known) := by
  induction fields with
  | nil => rfl
  | cons f rest ih => rw [Field.keptAll, ih, List.map_cons]

theorem ClassTy.kept_name (c : ClassTy) : (c.kept known).name = c.name := by
  obtain ⟨name, var, flags, origin, details⟩ := c
  cases origin <;> rfl

theorem ClassTy.kept_flags (c : ClassTy) : (c.kept known).flags = c.flags := by
  obtain ⟨name, var, flags, origin, details⟩ := c
  cases origin <;> rfl

theorem ClassTy.kept_of_named {c : ClassTy} (h : c.isDocTable = false) :
    c.kept known = ⟨c.name, c.varName, c.flags, .named, .known (known c)⟩ := by
  obtain ⟨name, var, flags, origin, details⟩ := c
  cases origin with
  | docTable fields => cases h
  | _ => rfl

end

/-! Equality. -/

section

variable (k l : ClassTy → ClassDetails)

mutual

theorem Ty.same_kept : ∀ a b : Ty, (a.kept k).same (b.kept l) = a.same b
  | .unknown, b | .invalid, b | .prim _, b => by cases b <;> rfl
  | .cls c, b => by
    cases b <;> simp [Ty.kept, Ty.same, BEq.beq, ClassTy.same, ClassTy.kept_name,
      ClassTy.kept_flags]
  | .union ms, b => by
    cases b <;> simp [Ty.kept, Ty.same, Ty.allIn_kept ms, Ty.keptAll_eq_map]
  | .generic x as, b => by
    cases b <;> simp [Ty.kept, Ty.same, Ty.same_kept x, Ty.allSame_kept as]
  | .func m os, b => by
    cases b <;> simp [Ty.kept, Ty.same, Signature.same_kept m, Signature.allSame_kept os]
  | .array x, b => by cases b <;> simp [Ty.kept, Ty.same, Ty.same_kept x]
  | .tuple as, b => by cases b <;> simp [Ty.kept, Ty.same, Ty.allSame_kept as]
termination_by structural a => a

theorem Ty.allIn_kept :
    ∀ ms ns : List Ty, Ty.allIn (ms.map (Ty.kept k)) (ns.map (Ty.kept l)) = Ty.allIn ms ns
  | [], _ => rfl
  | m :: ms, ns => by
    have hm : ∀ n : Ty, (m.kept k).same (n.kept l) = m.same n := Ty.same_kept m
    simp [Ty.allIn, Ty.allIn_kept ms, hm, Function.comp_def]
termination_by structural ms => ms

theorem Ty.allSame_kept :
    ∀ as bs : List Ty, Ty.allSame (Ty.keptAll k as) (Ty.keptAll l bs) = Ty.allSame as bs
  | [], bs => by cases bs <;> rfl
  | a :: as, bs => by
    cases bs <;> simp [Ty.keptAll, Ty.allSame, Ty.same_kept a, Ty.allSame_kept as]
termination_by structural as => as

theorem Signature.same_kept : ∀ a b : Signature, (a.kept k).same (b.kept l) = a.same b
  | ⟨_, params, vararg?, ret, _⟩, ⟨_, _, _, _, _⟩ => by
    simp [Signature.kept, Signature.same, Field.allSame_kept params, Ty.sameOption_kept vararg?,
      Ty.same_kept ret]
termination_by structural a => a

theorem Signature.allSame_kept :
    ∀ as bs : List Signature,
      Signature.allSame (Signature.keptAll k as) (Signature.keptAll l bs) = Signature.allSame as bs
  | [], bs => by cases bs <;> rfl
  | a :: as, bs => by
    cases bs <;>
      simp [Signature.keptAll, Signature.allSame, Signature.same_kept a, Signature.allSame_kept as]
termination_by structural as => as

theorem Field.same_kept : ∀ a b : Field, (a.kept k).same (b.kept l) = a.same b
  | ⟨_, ty⟩, ⟨_, _⟩ => by simp [Field.kept, Field.same, Ty.same_kept ty]
termination_by structural a => a

theorem Field.allSame_kept :
    ∀ as bs : List Field,
      Field.allSame (Field.keptAll k as) (Field.keptAll l bs) = Field.allSame as bs
  | [], bs => by cases bs <;> rfl
  | a :: as, bs => by
    cases bs <;> simp [Field.keptAll, Field.allSame, Field.same_kept a, Field.allSame_kept as]
termination_by structural as => as

theorem Ty.sameOption_kept :
    ∀ a? b? : Option Ty,
      Ty.sameOption (Ty.keptOption k a?) (Ty.keptOption l b?) = Ty.sameOption a? b?
  | none, b? => by cases b? <;> rfl
  | some a, b? => by cases b? <;> simp [Ty.keptOption, Ty.sameOption, Ty.same_kept a]
termination_by structural a? => a?

end

end

/-! Storing. -/

theorem StoredTy.ofTy_of_named (memo : ClassMemo) {c : ClassTy} (h : c.isDocTable = false) :
    StoredTy.ofTy memo (.cls c) = .cls (.ofClass memo c) := by
  obtain ⟨name, var, flags, origin, details⟩ := c
  cases origin with
  | docTable fields => cases h
  | _ => rfl

mutual

theorem StoredTy.ofTy_kept (memo memo' : ClassMemo) :
    ∀ ty : Ty, StoredTy.ofTy memo' (ty.kept memo.known) = StoredTy.ofTy memo ty
  | .unknown | .invalid | .prim _ => rfl
  | .cls c => StoredTy.ofClass_kept memo memo' c
  | .union members => by
    rw [Ty.kept, StoredTy.ofTy, StoredTy.ofTy, StoredTy.ofTys_kept memo memo' members]
  | .generic base args => by
    rw [Ty.kept, StoredTy.ofTy, StoredTy.ofTy, StoredTy.ofTy_kept memo memo' base,
      StoredTy.ofTys_kept memo memo' args]
  | .func main overloads => by
    rw [Ty.kept, StoredTy.ofTy, StoredTy.ofTy, StoredSignature.ofSignature_kept memo memo' main,
      StoredSignature.ofSignatures_kept memo memo' overloads]
  | .array element => by
    rw [Ty.kept, StoredTy.ofTy, StoredTy.ofTy, StoredTy.ofTy_kept memo memo' element]
  | .tuple items => by
    rw [Ty.kept, StoredTy.ofTy, StoredTy.ofTy, StoredTy.ofTys_kept memo memo' items]
termination_by structural ty => ty

theorem StoredTy.ofClass_kept (memo memo' : ClassMemo) :
    ∀ c : ClassTy, StoredTy.ofClass memo' (c.kept memo.known) = StoredTy.ofClass memo c
  | ⟨name, _, _, .docTable fields, _⟩ =>
    congrArg (StoredTy.docTable name) (StoredField.ofFields_kept memo memo' fields)
  | ⟨_, _, _, .named, _⟩ | ⟨_, _, _, .literal .., _⟩ => rfl
termination_by structural c => c

theorem StoredTy.ofTys_kept (memo memo' : ClassMemo) :
    ∀ types : List Ty,
      StoredTy.ofTys memo' (Ty.keptAll memo.known types) = StoredTy.ofTys memo types
  | [] => rfl
  | ty :: rest => by
    rw [Ty.keptAll, StoredTy.ofTys, StoredTy.ofTys, StoredTy.ofTy_kept memo memo' ty,
      StoredTy.ofTys_kept memo memo' rest]
termination_by structural types => types

theorem StoredField.ofFields_kept (memo memo' : ClassMemo) :
    ∀ fields : List Field,
      StoredField.ofFields memo' (Field.keptAll memo.known fields)
        = StoredField.ofFields memo fields
  | [] => rfl
  | ⟨_, ty⟩ :: rest => by
    rw [Field.keptAll, Field.kept, StoredField.ofFields, StoredField.ofFields,
      StoredTy.ofTy_kept memo memo' ty, StoredField.ofFields_kept memo memo' rest]
termination_by structural fields => fields

theorem StoredSignature.ofSignature_kept (memo memo' : ClassMemo) :
    ∀ sig : Signature,
      StoredSignature.ofSignature memo' (sig.kept memo.known) = StoredSignature.ofSignature memo sig
  | ⟨_, params, none, ret, _⟩ => by
    rw [Signature.kept, Ty.keptOption, StoredSignature.ofSignature, StoredSignature.ofSignature,
      StoredField.ofFields_kept memo memo' params, StoredTy.ofTy_kept memo memo' ret]
  | ⟨_, params, some vararg, ret, _⟩ => by
    rw [Signature.kept, Ty.keptOption, StoredSignature.ofSignature, StoredSignature.ofSignature,
      StoredField.ofFields_kept memo memo' params, StoredTy.ofTy_kept memo memo' vararg,
      StoredTy.ofTy_kept memo memo' ret]
termination_by structural sig => sig

theorem StoredSignature.ofSignatures_kept (memo memo' : ClassMemo) :
    ∀ sigs : List Signature,
      StoredSignature.ofSignatures memo' (Signature.keptAll memo.known sigs)
        = StoredSignature.ofSignatures memo sigs
  | [] => rfl
  | sig :: rest => by
    rw [Signature.keptAll, StoredSignature.ofSignatures, StoredSignature.ofSignatures,
      StoredSignature.ofSignature_kept memo memo' sig,
      StoredSignature.ofSignatures_kept memo memo' rest]
termination_by structural sigs => sigs

end

end LuaTypes
