import LuaTypes.Ty.Union

/-!
Classes at the top of a type. Members are looked up on the classes at the top of a type, and a union
has the classes of its parts at its top.
-/

namespace LuaTypes

variable {cls : String}

namespace Ty

/-- The name of the class that a type that is no union has at its top. -/
def topName? : Ty → Option String
  | .cls c => some c.name
  | .generic base _ => base.asClass?.map (·.name)
  | _ => none

/-- A class of the name is at the top of the type. -/
def HasTop (cls : String) (ty : Ty) : Prop := ∃ c ∈ ty.topClasses, c.name = cls

/-- Members that are declared on the class can be found on the type, or the type is primitive. -/
def Offers (cls : String) (ty : Ty) : Prop := ty.isPrimitive = true ∨ ty.HasTop cls

theorem hasTop_iff {ty : Ty} : ty.HasTop cls ↔ ∃ m ∈ ty.each, m.topName? = some cls := by
  simp only [HasTop, topClasses, List.mem_filterMap]
  constructor
  · rintro ⟨c, ⟨m, hm, hc⟩, rfl⟩
    refine ⟨m, hm, ?_⟩
    cases m with
    | cls c' => exact congrArg (Option.map (·.name)) hc
    | generic base args => exact congrArg (Option.map (·.name)) hc
    | _ => cases hc
  · rintro ⟨m, hm, hname⟩
    cases m with
    | cls c => exact ⟨c, ⟨_, hm, rfl⟩, Option.some_inj.mp hname⟩
    | generic base args =>
      obtain ⟨c, hc, hname⟩ := Option.map_eq_some_iff.mp hname
      exact ⟨c, ⟨_, hm, hc⟩, hname⟩
    | _ => cases hname

theorem hasTop_cls (c : ClassTy) : (Ty.cls c).HasTop c.name :=
  ⟨c, List.mem_singleton_self c, rfl⟩

theorem not_hasTop_of_isInvalid {ty : Ty} (h : ty.isInvalid = true) : ¬ty.HasTop cls := by
  rintro ⟨c, hc, -⟩
  cases ty with
  | unknown | invalid => cases hc
  | _ => cases h

theorem not_offers_unknown : ¬Ty.unknown.Offers cls := by
  rintro (h | ⟨c, hc, -⟩)
  · cases h
  · cases hc

theorem not_offers_func (main : Signature) (overloads : List Signature) :
    ¬(Ty.func main overloads).Offers cls := by
  rintro (h | ⟨c, hc, -⟩)
  · cases h
  · cases hc

theorem asClass?_of_same {a b : Ty} (h : a.same b = true) :
    a.asClass?.map (·.name) = b.asClass?.map (·.name) := by
  cases a with
  | cls c =>
    cases b with
    | cls d =>
      have hsame : (c.name == d.name && c.flags == d.flags) = true := h
      simp only [Bool.and_eq_true, beq_iff_eq] at hsame
      exact congrArg some hsame.1
    | _ => cases h
  | _ => cases b <;> first | rfl | cases h

/-- Equal types have the same class at the top. -/
theorem topName?_of_same {a b : Ty} (h : a.same b = true) : a.topName? = b.topName? := by
  cases a with
  | cls c =>
    cases b with
    | cls d => exact asClass?_of_same h
    | _ => cases h
  | generic base args =>
    cases b with
    | generic base' args' =>
      simp only [Ty.same, Bool.and_eq_true] at h
      exact asClass?_of_same h.1
    | _ => cases h
  | _ => cases b <;> first | rfl | cases h

end Ty

namespace UnionBuilder

/-- Some member collected so far has the class at its top. -/
def Holds (cls : String) (members : List Ty) : Prop := ∃ m ∈ members, m.topName? = some cls

theorem Holds.insert {members : List Ty} (h : Holds cls members) (ty : Ty) :
    Holds cls (insert members ty) := by
  obtain ⟨m, hm, hname⟩ := h
  rw [UnionBuilder.insert]
  split
  · exact ⟨m, hm, hname⟩
  · exact ⟨m, List.mem_append_left _ hm, hname⟩

theorem holds_insert_self {ty : Ty} (h : ty.topName? = some cls) (members : List Ty) :
    Holds cls (insert members ty) := by
  rw [UnionBuilder.insert]
  split
  · rename_i hany
    obtain ⟨m, hm, hsame⟩ := List.any_eq_true.mp hany
    exact ⟨m, hm, (Ty.topName?_of_same hsame).trans h⟩
  · exact ⟨ty, List.mem_append_right _ (List.mem_singleton_self ty), h⟩

theorem Holds.foldl_insert {members : List Ty} (h : Holds cls members) (types : List Ty) :
    Holds cls (types.foldl UnionBuilder.insert members) :=
  List.foldlRecOn types _ h fun _ h ty _ => h.insert ty

theorem holds_foldl_insert_self {types : List Ty} (h : Holds cls types) (members : List Ty) :
    Holds cls (types.foldl UnionBuilder.insert members) := by
  obtain ⟨ty, hty, hname⟩ := h
  obtain ⟨before, after, rfl⟩ := List.append_of_mem hty
  rw [List.foldl_append, List.foldl_cons]
  exact (holds_insert_self hname _).foldl_insert after

theorem Holds.add {b : UnionBuilder} (h : Holds cls b.members) (ty : Ty) :
    Holds cls (b.add ty).members := by
  cases ty with
  | unknown | invalid => exact h
  | union members => exact h.foldl_insert members
  | _ => exact h.insert _

theorem holds_add_self {ty : Ty} (h : ty.HasTop cls) (b : UnionBuilder) :
    Holds cls (b.add ty).members := by
  have hholds : Holds cls ty.each := Ty.hasTop_iff.mp h
  cases ty with
  | union members => exact holds_foldl_insert_self hholds b.members
  | cls c | generic base args => exact holds_foldl_insert_self hholds b.members
  | _ =>
    obtain ⟨m, hm, hname⟩ := hholds
    obtain rfl := List.mem_singleton.mp hm
    cases hname

theorem hasTop_type {b : UnionBuilder} (h : Holds cls b.members) : b.type.HasTop cls := by
  obtain ⟨members, sawUnknown, sawInvalid⟩ := b
  obtain ⟨m, hm, hname⟩ := h
  rcases members with _ | ⟨ty, _ | ⟨other, rest⟩⟩
  · cases hm
  · obtain rfl := List.mem_singleton.mp hm
    rw [Ty.hasTop_iff]
    refine ⟨m, ?_, hname⟩
    cases m with
    | union members => cases hname
    | _ => exact List.mem_singleton_self _
  · exact Ty.hasTop_iff.mpr ⟨m, hm, hname⟩

end UnionBuilder

namespace Ty

theorem hasTop_unionAll_left {a : Ty} (h : a.HasTop cls) (b : Ty) : (unionAll [a, b]).HasTop cls :=
  UnionBuilder.hasTop_type ((UnionBuilder.holds_add_self h _).add b)

theorem hasTop_unionAll_right (a : Ty) {b : Ty} (h : b.HasTop cls) : (unionAll [a, b]).HasTop cls :=
  UnionBuilder.hasTop_type (UnionBuilder.holds_add_self h _)

theorem HasTop.join_left {a : Ty} (h : a.HasTop cls) (b : Ty) : (a.join b).HasTop cls := by
  have hvalid : a.isInvalid = false := by
    cases ha : a.isInvalid with
    | false => rfl
    | true => exact absurd h (not_hasTop_of_isInvalid ha)
  rw [join, hvalid]
  cases b.isInvalid with
  | true => exact h
  | false =>
    simp only
    split
    · exact h
    · exact hasTop_unionAll_left h b

/-- What holds of a type that equals another one, or of a union with it, holds of the join. -/
theorem hasTop_join_right {a b : Ty} (h : b.HasTop cls)
    (hsame : a.same b = true → a.HasTop cls) : (a.join b).HasTop cls := by
  have hvalid : b.isInvalid = false := by
    cases hb : b.isInvalid with
    | false => rfl
    | true => exact absurd h (not_hasTop_of_isInvalid hb)
  rw [join, hvalid]
  cases a.isInvalid with
  | true => exact h
  | false =>
    simp only
    split
    · rename_i heq
      exact hsame heq
    · exact hasTop_unionAll_right a h

/-- A class is at the top of every join with it. -/
theorem hasTop_join_cls (a : Ty) (c : ClassTy) : (a.join (.cls c)).HasTop c.name := by
  refine hasTop_join_right (hasTop_cls c) fun hsame => ?_
  cases a with
  | cls d =>
    have hname := topName?_of_same hsame
    exact Option.some_inj.mp hname ▸ hasTop_cls d
  | _ => cases hsame

end Ty

end LuaTypes
