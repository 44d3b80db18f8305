import LuaTypes.Proofs.Lifting
import LuaTypes.Proofs.Renaming
import LuaTypes.Proofs.WellFormed
import LuaTypes.Ty.Weight

/-!
Operations on types commute with renaming cells: equality, unions, and rewriting.
-/

namespace LuaTypes

variable (ρ : CellMap)

mutual

theorem Ty.same_rename : ∀ a b : Ty, (a.rename ρ).same (b.rename ρ) = a.same b
  | .unknown, b | .invalid, b | .prim _, b => by cases b <;> simp [Ty.same]
  | .cls c, b => by cases b <;> simp [Ty.same, BEq.beq, ClassTy.same]
  | .union ms, b => by cases b <;> simp [Ty.same, Ty.allIn_rename ms]
  | .generic x as, b => by cases b <;> simp [Ty.same, Ty.same_rename x, Ty.allSame_rename as]
  | .func m os, b => by
    cases b <;> simp [Ty.same, Signature.same_rename m, Signature.allSame_rename os]
  | .array x, b => by cases b <;> simp [Ty.same, Ty.same_rename x]
  | .tuple as, b => by cases b <;> simp [Ty.same, Ty.allSame_rename as]
termination_by structural a => a

theorem Ty.allIn_rename :
    ∀ ms ns : List Ty, Ty.allIn (ms.map (Ty.rename ρ)) (ns.map (Ty.rename ρ)) = Ty.allIn ms ns
  | [], _ => rfl
  | m :: ms, ns => by
    have hm : ∀ n : Ty, (m.rename ρ).same (n.rename ρ) = m.same n := Ty.same_rename m
    simp [Ty.allIn, Ty.allIn_rename ms, hm, Function.comp_def]
termination_by structural ms => ms

theorem Ty.allSame_rename :
    ∀ as bs : List Ty,
      Ty.allSame (as.map (Ty.rename ρ)) (bs.map (Ty.rename ρ)) = Ty.allSame as bs
  | [], bs => by cases bs <;> rfl
  | a :: as, bs => by cases bs <;> simp [Ty.allSame, Ty.same_rename a, Ty.allSame_rename as]
termination_by structural as => as

theorem Signature.same_rename :
    ∀ a b : Signature, (a.rename ρ).same (b.rename ρ) = a.same b
  | ⟨_, params, vararg?, ret, _⟩, ⟨_, _, _, _, _⟩ => by
    simp [Signature.rename, Signature.same, Field.allSame_rename params,
      Ty.sameOption_rename vararg?, Ty.same_rename ret]
termination_by structural a => a

theorem Signature.allSame_rename :
    ∀ as bs : List Signature,
      Signature.allSame (as.map (Signature.rename ρ)) (bs.map (Signature.rename ρ))
        = Signature.allSame as bs
  | [], bs => by cases bs <;> rfl
  | a :: as, bs => by
    cases bs <;> simp [Signature.allSame, Signature.same_rename a, Signature.allSame_rename as]
termination_by structural as => as

theorem Field.same_rename : ∀ a b : Field, (a.rename ρ).same (b.rename ρ) = a.same b
  | ⟨_, ty⟩, ⟨_, _⟩ => by simp [Field.rename, Field.same, Ty.same_rename ty]
termination_by structural a => a

theorem Field.allSame_rename :
    ∀ as bs : List Field,
      Field.allSame (as.map (Field.rename ρ)) (bs.map (Field.rename ρ)) = Field.allSame as bs
  | [], bs => by cases bs <;> rfl
  | a :: as, bs => by
    cases bs <;> simp [Field.allSame, Field.same_rename a, Field.allSame_rename as]
termination_by structural as => as

theorem Ty.sameOption_rename :
    ∀ a? b? : Option Ty,
      Ty.sameOption (a?.map (Ty.rename ρ)) (b?.map (Ty.rename ρ)) = Ty.sameOption a? b?
  | none, b? => by cases b? <;> rfl
  | some a, b? => by cases b? <;> simp [Ty.sameOption, Ty.same_rename a]
termination_by structural a? => a?

end

/-! A type equals itself with its cells renamed. -/

mutual

theorem Ty.same_self : ∀ a : Ty, (a.rename ρ).same a = true
  | .unknown | .invalid => rfl
  | .prim p => by simp [Ty.same]
  | .cls c => by simp [Ty.same, BEq.beq, ClassTy.same]
  | .union ms => by simp [Ty.same, Ty.allIn_self ms ms fun _ h => h]
  | .generic x as => by simp [Ty.same, Ty.same_self x, Ty.allSame_self as]
  | .func m os => by simp [Ty.same, Signature.same_self m, Signature.allSame_self os]
  | .array x => by simp [Ty.same, Ty.same_self x]
  | .tuple as => by simp [Ty.same, Ty.allSame_self as]
termination_by structural a => a

theorem Ty.allIn_self :
    ∀ ms ns : List Ty, (∀ m ∈ ms, m ∈ ns) → Ty.allIn (ms.map (Ty.rename ρ)) ns = true
  | [], _, _ => rfl
  | m :: ms, ns, h => by
    have hm : ns.any (fun n => (m.rename ρ).same n) = true :=
      List.any_eq_true.mpr ⟨m, h m List.mem_cons_self, Ty.same_self m⟩
    simp [Ty.allIn, hm, Ty.allIn_self ms ns fun a ha => h a (List.mem_cons_of_mem m ha)]
termination_by structural ms => ms

theorem Ty.allSame_self : ∀ as : List Ty, Ty.allSame (as.map (Ty.rename ρ)) as = true
  | [] => rfl
  | a :: as => by simp [Ty.allSame, Ty.same_self a, Ty.allSame_self as]
termination_by structural as => as

theorem Signature.same_self : ∀ a : Signature, (a.rename ρ).same a = true
  | ⟨_, params, vararg?, ret, _⟩ => by
    simp [Signature.rename, Signature.same, Field.allSame_self params,
      Ty.sameOption_self vararg?, Ty.same_self ret]
termination_by structural a => a

theorem Signature.allSame_self :
    ∀ as : List Signature, Signature.allSame (as.map (Signature.rename ρ)) as = true
  | [] => rfl
  | a :: as => by simp [Signature.allSame, Signature.same_self a, Signature.allSame_self as]
termination_by structural as => as

theorem Field.same_self : ∀ a : Field, (a.rename ρ).same a = true
  | ⟨_, ty⟩ => by simp [Field.rename, Field.same, Ty.same_self ty]
termination_by structural a => a

theorem Field.allSame_self :
    ∀ as : List Field, Field.allSame (as.map (Field.rename ρ)) as = true
  | [] => rfl
  | a :: as => by simp [Field.allSame, Field.same_self a, Field.allSame_self as]
termination_by structural as => as

theorem Ty.sameOption_self :
    ∀ a? : Option Ty, Ty.sameOption (a?.map (Ty.rename ρ)) a? = true
  | none => rfl
  | some a => by simp [Ty.sameOption, Ty.same_self a]
termination_by structural a? => a?

end

namespace Ty

@[simp] theorem beq_rename (a b : Ty) : (a.rename ρ == b.rename ρ) = (a == b) :=
  same_rename ρ a b

@[simp] theorem isInvalid_rename (ty : Ty) : (ty.rename ρ).isInvalid = ty.isInvalid := by
  cases ty <;> simp [isInvalid]

@[simp] theorem isUnknown_rename (ty : Ty) : (ty.rename ρ).isUnknown = ty.isUnknown := by
  cases ty <;> simp [isUnknown]

@[simp] theorem isPrimitive_rename (ty : Ty) : (ty.rename ρ).isPrimitive = ty.isPrimitive := by
  cases ty <;> simp [isPrimitive]

@[simp] theorem isFunction_rename (ty : Ty) : (ty.rename ρ).isFunction = ty.isFunction := by
  cases ty <;> simp [isFunction]

@[simp] theorem asClass?_rename (ty : Ty) :
    (ty.rename ρ).asClass? = ty.asClass?.map (ClassTy.rename ρ) := by
  cases ty <;> simp [asClass?]

@[simp] theorem getD_rename (ty? : Option Ty) :
    (ty?.map (Ty.rename ρ)).getD .unknown = (ty?.getD .unknown).rename ρ := by
  cases ty? <;> rfl

@[simp] theorem each_rename (ty : Ty) : (ty.rename ρ).each = ty.each.map (Ty.rename ρ) := by
  cases ty <;> simp [each]

@[simp] theorem classes_rename (ty : Ty) :
    (ty.rename ρ).classes = ty.classes.map (ClassTy.rename ρ) := by
  rw [classes, each_rename, List.filterMap_map, classes, List.map_filterMap]
  exact congrArg (List.filterMap · _) (funext (asClass?_rename ρ))

theorem filterMap_each_rename {f : Ty → Option Ty}
    (hf : ∀ ty, f (ty.rename ρ) = (f ty).map (Ty.rename ρ)) (ty : Ty) :
    (ty.rename ρ).each.filterMap f = (ty.each.filterMap f).map (Ty.rename ρ) := by
  rw [each_rename, List.filterMap_map, List.map_filterMap]
  exact congrArg (List.filterMap · _) (funext hf)

@[simp] theorem valueAt_rename (ty : Ty) (index : Nat) :
    (ty.rename ρ).valueAt index = (ty.valueAt index).rename ρ := by
  cases ty with
  | tuple items =>
    simp only [rename_tuple, valueAt, List.getElem?_map, List.head?_map]
    cases items[index]? <;> cases items.head? <;> rfl
  | _ => simp [valueAt]

end Ty

@[simp] theorem typeArg_rename (args : List Ty) (index : Nat) :
    typeArg (args.map (Ty.rename ρ)) index = (typeArg args index).rename ρ := by
  simp only [typeArg, List.getElem?_map]
  cases args[index]? <;> rfl

namespace UnionBuilder

/-- The builder with the cells of its members renamed. -/
def rename (b : UnionBuilder) : UnionBuilder := { b with members := b.members.map (Ty.rename ρ) }

theorem insert_rename (members : List Ty) (ty : Ty) :
    insert (members.map (Ty.rename ρ)) (ty.rename ρ) = (insert members ty).map (Ty.rename ρ) := by
  have h : (members.map (Ty.rename ρ)).any (· == ty.rename ρ) = members.any (· == ty) := by
    simp [Function.comp_def]
  simp only [insert, h]
  split <;> simp

theorem foldl_insert_rename (types members : List Ty) :
    (types.map (Ty.rename ρ)).foldl insert (members.map (Ty.rename ρ))
      = (types.foldl insert members).map (Ty.rename ρ) := by
  induction types generalizing members with
  | nil => rfl
  | cons ty types ih => simp only [List.map_cons, List.foldl_cons, insert_rename, ih]

theorem add_rename (b : UnionBuilder) (ty : Ty) :
    (b.rename ρ).add (ty.rename ρ) = (b.add ty).rename ρ := by
  cases ty <;> simp [add, rename, ← insert_rename, ← foldl_insert_rename]

theorem foldl_add_rename (types : List Ty) (b : UnionBuilder) :
    (types.map (Ty.rename ρ)).foldl add (b.rename ρ) = (types.foldl add b).rename ρ := by
  induction types generalizing b with
  | nil => rfl
  | cons ty types ih => simp only [List.map_cons, List.foldl_cons, add_rename, ih]

theorem type?_rename (b : UnionBuilder) : (b.rename ρ).type? = b.type?.map (Ty.rename ρ) := by
  obtain ⟨members, _, _⟩ := b
  rcases members with _ | ⟨ty, _ | ⟨other, rest⟩⟩
  · rfl
  · rfl
  · simp [type?, rename]

theorem type_rename (b : UnionBuilder) : (b.rename ρ).type = b.type.rename ρ := by
  rw [type, type, type?_rename]
  cases b.type? with
  | some ty => rfl
  | none => cases h : b.sawInvalid && !b.sawUnknown <;> simp [rename, h]

end UnionBuilder

namespace Ty

@[simp] theorem unionAll_rename (types : List Ty) :
    unionAll (types.map (Ty.rename ρ)) = (unionAll types).rename ρ := by
  rw [unionAll, unionAll, ← UnionBuilder.type_rename, ← UnionBuilder.foldl_add_rename]
  rfl

@[simp] theorem join_rename (a b : Ty) :
    (a.rename ρ).join (b.rename ρ) = (a.join b).rename ρ := by
  have hunion : unionAll [a.rename ρ, b.rename ρ] = (unionAll [a, b]).rename ρ :=
    unionAll_rename ρ [a, b]
  simp only [join, isInvalid_rename, isUnknown_rename, beq_rename, hunion]
  cases a.isInvalid <;> cases b.isInvalid <;> simp only <;> split <;> rfl

@[simp] theorem foldl_join_rename (types : List Ty) (ty : Ty) :
    (types.map (Ty.rename ρ)).foldl join (ty.rename ρ) = (types.foldl join ty).rename ρ := by
  induction types generalizing ty with
  | nil => rfl
  | cons t types ih => simp only [List.map_cons, List.foldl_cons, join_rename, ih]

end Ty

/-! Rewriting. -/

theorem Ty.classNames_of_mem {types : List Ty} {ty : Ty} (h : ty ∈ types) :
    ty.classNames ⊆ Ty.allClassNames types := by
  induction types with
  | nil => simp at h
  | cons other rest ih =>
    rw [Ty.allClassNames]
    rcases List.mem_cons.mp h with rfl | h
    · exact List.subset_append_left _ _
    · exact List.Subset.trans (ih h) (List.subset_append_right _ _)

theorem Field.classNames_of_mem {fields : List Field} {f : Field} (h : f ∈ fields) :
    f.ty.classNames ⊆ Field.allClassNames fields := by
  induction fields with
  | nil => simp at h
  | cons other rest ih =>
    obtain ⟨name, ty⟩ := other
    rw [Field.allClassNames]
    rcases List.mem_cons.mp h with rfl | h
    · exact List.subset_append_left _ _
    · exact List.Subset.trans (ih h) (List.subset_append_right _ _)

theorem Signature.classNames_of_mem {sigs : List Signature} {sig : Signature} (h : sig ∈ sigs) :
    sig.classNames ⊆ Signature.allClassNames sigs := by
  induction sigs with
  | nil => simp at h
  | cons other rest ih =>
    rw [Signature.allClassNames]
    rcases List.mem_cons.mp h with rfl | h
    · exact List.subset_append_left _ _
    · exact List.Subset.trans (ih h) (List.subset_append_right _ _)

/-- The types of a signature hold no other class nodes than it does. -/
theorem Signature.classNames_types (sig : Signature) :
    ∀ ty ∈ sig.types, ty.classNames ⊆ sig.classNames := by
  obtain ⟨colon, params, vararg?, ret, typeParams⟩ := sig
  cases vararg? with
  | none =>
    rw [Signature.classNames]
    refine Signature.forall_types (fun f hf => ?_) (List.subset_append_right _ _) nofun
    exact List.Subset.trans (Field.classNames_of_mem hf) (List.subset_append_left _ _)
  | some v =>
    rw [Signature.classNames, List.append_assoc]
    refine Signature.forall_types (fun f hf => ?_) ?_ ?_
    · exact List.Subset.trans (Field.classNames_of_mem hf) (List.subset_append_left _ _)
    · exact List.Subset.trans (List.subset_append_right _ _) (List.subset_append_right _ _)
    · rintro _ ⟨⟩
      exact List.Subset.trans (List.subset_append_left _ _) (List.subset_append_right _ _)

/-- What a class node becomes. -/
def Rewriter.atClass {m : Type → Type} [Monad m] (f : Rewriter m) (c : ClassTy) : m Ty := do
  return (← f.replace? c).getD (.cls c)

/-- The parts that rewriting a type goes into. -/
def Ty.walked (generics : Bool) : Ty → List Ty
  | .union members => members
  | .generic base args => if generics then base :: args else []
  | .func main overloads => (main :: overloads).flatMap Signature.types
  | .array element => [element]
  | .tuple items => items
  | _ => []

theorem Ty.name_mem_classNames (c : ClassTy) : c.name ∈ (Ty.cls c).classNames := by
  obtain ⟨name, _, _, origin, _⟩ := c
  cases origin <;> simp [Ty.classNames, ClassTy.classNames]

theorem Ty.classNames_each {ty m : Ty} (h : m ∈ ty.each) : m.classNames ⊆ ty.classNames := by
  cases ty with
  | union members => exact Ty.classNames_of_mem h
  | _ =>
    obtain rfl := List.mem_singleton.mp h
    exact List.Subset.refl _

theorem Ty.classNames_walked {generics : Bool} {ty : Ty} :
    ∀ part ∈ ty.walked generics, part.classNames ⊆ ty.classNames := by
  intro part hpart
  cases ty with
  | unknown | invalid | prim p | cls c => cases hpart
  | union members => exact Ty.classNames_of_mem hpart
  | generic base args =>
    cases generics with
    | false => cases hpart
    | true =>
      rcases List.mem_cons.mp hpart with rfl | hpart
      · exact List.subset_append_left _ _
      · exact List.Subset.trans (Ty.classNames_of_mem hpart) (List.subset_append_right _ _)
  | func main overloads =>
    obtain ⟨sig, hsig, hpart⟩ := List.mem_flatMap.mp hpart
    refine List.Subset.trans (sig.classNames_types part hpart) ?_
    rcases List.mem_cons.mp hsig with rfl | hsig
    · exact List.subset_append_left _ _
    · exact List.Subset.trans (Signature.classNames_of_mem hsig) (List.subset_append_right _ _)
  | array element =>
    obtain rfl := List.mem_singleton.mp hpart
    exact List.Subset.refl _
  | tuple items => exact Ty.classNames_of_mem hpart

namespace Lifting

variable {m n : Type → Type} [Monad m] [Monad n] [LawfulMonad m] [LawfulMonad n]
variable (L : Lifting m n)

theorem mapTypesM {f : Ty → m Ty} {g : Ty → n Ty} (sig : Signature)
    (hf : ∀ ty ∈ sig.types, L.Maps (Ty.rename ρ) (f ty) (g (ty.rename ρ))) :
    L.Maps (Signature.rename ρ) (sig.mapTypesM f) ((sig.rename ρ).mapTypesM g) := by
  obtain ⟨colon, params, vararg?, ret, typeParams⟩ := sig
  have hparams : L.Maps (List.map (Field.rename ρ))
      (params.mapM fun p => do return ⟨p.name, ← f p.ty⟩)
      ((params.map (Field.rename ρ)).mapM fun p => do return ⟨p.name, ← g p.ty⟩) := by
    refine L.mapM (Field.rename ρ) params fun p hp => ?_
    have hty := hf p.ty (List.mem_append_left _ (List.mem_map_of_mem hp))
    obtain ⟨name, ty⟩ := p
    exact L.bind hty fun ty => L.pure (Field.rename ρ) ⟨name, ty⟩
  have hrest : ∀ params vararg?, L.Maps (Signature.rename ρ)
      (do return ⟨colon, params, vararg?, ← f ret, typeParams⟩)
      (do return ⟨colon, params.map (Field.rename ρ), vararg?.map (Ty.rename ρ),
        ← g (ret.rename ρ), typeParams⟩) := fun params vararg? => by
    refine L.bind (hf ret (List.mem_append_right _ List.mem_cons_self)) fun ret => ?_
    rw [← Field.renameAll_eq_map, ← Ty.renameOption_eq_map]
    exact L.pure (Signature.rename ρ) ⟨colon, params, vararg?, ret, typeParams⟩
  simp only [Signature.mapTypesM, Signature.rename, Field.renameAll_eq_map, Ty.renameOption_eq_map]
  refine L.bind hparams fun params => ?_
  cases vararg? with
  | none => exact L.bind (L.pure (Option.map (Ty.rename ρ)) none) fun vararg? => hrest params vararg?
  | some v =>
    have hv := hf v (List.mem_append_right _ (List.mem_cons_of_mem _ (List.mem_singleton_self v)))
    refine L.bind (φ := Option.map (Ty.rename ρ)) (L.map hv fun _ => rfl) fun vararg? => ?_
    exact hrest params vararg?

variable {f : Rewriter m} {g : Rewriter n}

/-- Rewriting mirrors rewriting if the rewriters mirror each other on every class node that it comes
to. -/
theorem rewrite_walked (hgenerics : f.entersGenerics = g.entersGenerics) {P : Ty → Prop}
    (hwalked : ∀ {ty : Ty}, P ty → ∀ part ∈ ty.walked f.entersGenerics, P part)
    (hf : ∀ {c : ClassTy}, P (.cls c) →
      L.Maps (Ty.rename ρ) (f.atClass c) (g.atClass (c.rename ρ))) (room : Nat)
    {ty : Ty} (hty : P ty) :
    L.Maps (Ty.rename ρ) (ty.rewrite f room) ((ty.rename ρ).rewrite g room) := by
  induction room generalizing ty with
  | zero => exact L.pure (Ty.rename ρ) ty
  | succ room ih =>
    have hall (types : List Ty) (h : ∀ part ∈ types, P part) :
        L.Maps (List.map (Ty.rename ρ)) (types.mapM (Ty.rewrite f room))
          ((types.map (Ty.rename ρ)).mapM (Ty.rewrite g room)) :=
      L.mapM (Ty.rename ρ) types fun part hpart => ih (h part hpart)
    have hparts := hwalked hty
    cases ty with
    | unknown => exact L.pure (Ty.rename ρ) .unknown
    | invalid => exact L.pure (Ty.rename ρ) .invalid
    | prim p => exact L.pure (Ty.rename ρ) (.prim p)
    | cls c => exact hf hty
    | union members =>
      rw [Ty.rename_union]
      refine L.bind (hall members hparts) fun members => ?_
      rw [Ty.unionAll_rename]
      exact L.pure (Ty.rename ρ) (.unionAll members)
    | generic base args =>
      rw [Ty.rename_generic, Ty.rewrite, Ty.rewrite, ← hgenerics]
      split
      · rename_i henters
        rw [henters] at hparts
        obtain ⟨hbase, hargs⟩ := List.forall_mem_cons.mp hparts
        refine L.bind (ih hbase) fun base => ?_
        refine L.bind (hall args hargs) fun args => ?_
        rw [← Ty.rename_generic]
        exact L.pure (Ty.rename ρ) (.generic base args)
      · rw [← Ty.rename_generic]
        exact L.pure (Ty.rename ρ) (.generic base args)
    | func main overloads =>
      have hsig (sig : Signature) (hsig : sig ∈ main :: overloads) :=
        L.mapTypesM ρ sig fun part hpart =>
          ih (hparts part (List.mem_flatMap.mpr ⟨sig, hsig, hpart⟩))
      rw [Ty.rename_func]
      refine L.bind (hsig main List.mem_cons_self) fun main => ?_
      refine L.bind (L.mapM (Signature.rename ρ) overloads fun sig h =>
        hsig sig (List.mem_cons_of_mem _ h)) fun overloads => ?_
      rw [← Ty.rename_func]
      exact L.pure (Ty.rename ρ) (.func main overloads)
    | array element =>
      refine L.bind (ih (hparts element (List.mem_singleton_self _))) fun element => ?_
      exact L.pure (Ty.rename ρ) (.array element)
    | tuple items =>
      rw [Ty.rename_tuple]
      refine L.bind (hall items hparts) fun items => ?_
      rw [← Ty.rename_tuple]
      exact L.pure (Ty.rename ρ) (.tuple items)

/-- Rewriting mirrors rewriting if the rewriters mirror each other on the class nodes of the
type. -/
theorem rewrite (hgenerics : f.entersGenerics = g.entersGenerics) (room : Nat) (ty : Ty)
    (hf : ∀ c : ClassTy, c.name ∈ ty.classNames →
      L.Maps (Option.map (Ty.rename ρ)) (f.replace? c) (g.replace? (c.rename ρ))) :
    L.Maps (Ty.rename ρ) (ty.rewrite f room) ((ty.rename ρ).rewrite g room) := by
  refine L.rewrite_walked ρ hgenerics (P := fun part => part.classNames ⊆ ty.classNames)
    (fun h part hpart => ?_) (fun {c} hc => ?_) room (List.Subset.refl _)
  · exact List.Subset.trans (Ty.classNames_walked part hpart) h
  · refine L.bind (hf c (hc (Ty.name_mem_classNames c))) fun found => ?_
    cases found with
    | none => exact L.pure (Ty.rename ρ) (.cls c)
    | some ty => exact L.pure (Ty.rename ρ) ty

theorem substitute (hgenerics : f.entersGenerics = g.entersGenerics) (ty : Ty)
    (hf : ∀ c : ClassTy, c.name ∈ ty.classNames →
      L.Maps (Option.map (Ty.rename ρ)) (f.replace? c) (g.replace? (c.rename ρ))) :
    L.Maps (Ty.rename ρ) (ty.substitute f) ((ty.rename ρ).substitute g) :=
  L.rewrite ρ hgenerics maxSubstDepth ty hf

end Lifting

end LuaTypes
