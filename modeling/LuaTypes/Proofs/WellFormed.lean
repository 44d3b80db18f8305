import LuaTypes.Ty.Union

/-!
Well-formed types. A type is well formed if every union in it, at any depth, has at least two
members, none of them a union or a sentinel and no two of them equal. Unions that are made by the
builder are well formed if their members are.
-/

namespace LuaTypes

def ClassTy.docFields (c : ClassTy) : List Field :=
  match c.origin with
  | .docTable fields => fields
  | _ => []

/-- The types of a signature: of its parameters, of its result and of its further arguments. -/
def Signature.types (sig : Signature) : List Ty :=
  sig.params.map (·.ty) ++ sig.ret :: sig.vararg?.toList

theorem Signature.forall_types {sig : Signature} {P : Ty → Prop} (hparams : ∀ p ∈ sig.params, P p.ty)
    (hret : P sig.ret) (hvararg : ∀ v ∈ sig.vararg?, P v) : ∀ ty ∈ sig.types, P ty := by
  intro ty hty
  rcases List.mem_append.mp hty with hty | hty
  · obtain ⟨p, hp, rfl⟩ := List.mem_map.mp hty
    exact hparams p hp
  · rcases List.mem_cons.mp hty with rfl | hty
    · exact hret
    · exact hvararg ty (Option.mem_toList.mp hty)

namespace Ty

/-- The types within a type, one level down. -/
def parts : Ty → List Ty
  | .unknown | .invalid | .prim _ => []
  | .cls c => c.docFields.map (·.ty)
  | .union members => members
  | .generic base args => base :: args
  | .func main overloads => (main :: overloads).flatMap Signature.types
  | .array element => [element]
  | .tuple items => items

/-- Neither a union nor a sentinel. -/
def isPlain : Ty → Bool
  | .unknown | .invalid | .union _ => false
  | _ => true

/-- What the members of a union are like. -/
structure Members (members : List Ty) : Prop where
  plain : ∀ m ∈ members, m.isPlain = true
  distinct : members.Pairwise fun a b => a.same b = false

/-- The members of the type, if it is a union, are two or more. -/
def IsCanonical (ty : Ty) : Prop :=
  ∀ members, ty = .union members → 2 ≤ members.length ∧ Members members

inductive WellFormed : Ty → Prop
  | intro {ty : Ty} : ty.IsCanonical → (∀ part ∈ ty.parts, part.WellFormed) → ty.WellFormed

namespace WellFormed

theorem part {ty : Ty} (h : ty.WellFormed) : ∀ part ∈ ty.parts, part.WellFormed := by
  cases h with
  | intro _ hparts => exact hparts

theorem canonical {ty : Ty} (h : ty.WellFormed) : ty.IsCanonical := by
  cases h with
  | intro hcanonical _ => exact hcanonical

/-- A type that is no union is well formed if its parts are. -/
theorem of_parts {ty : Ty} (hunion : ∀ members, ty ≠ .union members)
    (h : ∀ part ∈ ty.parts, part.WellFormed) : ty.WellFormed :=
  .intro (fun members heq => absurd heq (hunion members)) h

theorem unknown : WellFormed .unknown := of_parts nofun nofun

theorem invalid : WellFormed .invalid := of_parts nofun nofun

theorem prim (p : Prim) : WellFormed (.prim p) := of_parts nofun nofun

theorem cls {c : ClassTy} (h : ∀ f ∈ c.docFields, f.ty.WellFormed) : WellFormed (.cls c) := by
  apply of_parts
  · nofun
  · intro part hpart
    obtain ⟨f, hf, rfl⟩ := List.mem_map.mp hpart
    exact h f hf

theorem cls_of_docFields {c : ClassTy} (h : c.docFields = []) : WellFormed (.cls c) := by
  apply cls
  rw [h]
  nofun

theorem generic {base : Ty} {args : List Ty} (hbase : base.WellFormed)
    (hargs : ∀ arg ∈ args, arg.WellFormed) : WellFormed (.generic base args) :=
  of_parts nofun (List.forall_mem_cons.mpr ⟨hbase, hargs⟩)

theorem func {main : Signature} {overloads : List Signature}
    (hmain : ∀ ty ∈ main.types, ty.WellFormed)
    (hoverloads : ∀ sig ∈ overloads, ∀ ty ∈ sig.types, ty.WellFormed) :
    WellFormed (.func main overloads) := by
  apply of_parts
  · nofun
  · intro part hpart
    obtain ⟨sig, hsig, hty⟩ := List.mem_flatMap.mp hpart
    rcases List.mem_cons.mp hsig with rfl | hsig
    · exact hmain part hty
    · exact hoverloads sig hsig part hty

theorem array {element : Ty} (h : element.WellFormed) : WellFormed (.array element) :=
  of_parts nofun (List.forall_mem_singleton.mpr h)

theorem tuple {items : List Ty} (h : ∀ item ∈ items, item.WellFormed) : WellFormed (.tuple items) :=
  of_parts nofun h

theorem signature {main : Signature} {overloads : List Signature}
    (h : WellFormed (.func main overloads)) {sig : Signature} (hsig : sig ∈ main :: overloads) :
    ∀ ty ∈ sig.types, ty.WellFormed :=
  fun ty hty => h.part ty (List.mem_flatMap.mpr ⟨sig, hsig, hty⟩)

theorem docField {c : ClassTy} (h : WellFormed (.cls c)) : ∀ f ∈ c.docFields, f.ty.WellFormed :=
  fun _ hf => h.part _ (List.mem_map_of_mem hf)

theorem each {ty : Ty} (h : ty.WellFormed) : ∀ m ∈ ty.each, m.WellFormed := by
  cases ty with
  | union members => exact h.part
  | _ => exact List.forall_mem_singleton.mpr h

end WellFormed

end Ty

/-! Unions. -/

namespace UnionBuilder

open Ty (WellFormed)

/-! What holds of all members that are added holds of those that are collected. -/

section

variable {P : Ty → Prop}

theorem forall_insert {members : List Ty} (h : ∀ m ∈ members, P m) {ty : Ty} (hty : P ty) :
    ∀ m ∈ insert members ty, P m := by
  rw [insert]
  split
  · exact h
  · exact List.forall_mem_append.mpr ⟨h, List.forall_mem_singleton.mpr hty⟩

theorem forall_add {b : UnionBuilder} (h : ∀ m ∈ b.members, P m) {ty : Ty}
    (hty : ∀ m ∈ ty.each, P m) : ∀ m ∈ (b.add ty).members, P m := by
  cases ty with
  | unknown | invalid => exact h
  | union members =>
    exact List.foldlRecOn (motive := fun collected => ∀ m ∈ collected, P m) members _ h
      fun _ h m hm => forall_insert h (hty m hm)
  | _ => exact forall_insert h (hty _ (List.mem_singleton_self _))

theorem forall_foldl_add {types : List Ty} (h : ∀ ty ∈ types, ∀ m ∈ ty.each, P m) :
    ∀ m ∈ (types.foldl add {}).members, P m :=
  List.foldlRecOn (motive := fun b : UnionBuilder => ∀ m ∈ b.members, P m) types _ nofun
    fun _ hb ty hty => forall_add hb (h ty hty)

theorem forall_type? {b : UnionBuilder} (h : ∀ m ∈ b.members, P m ∧ ∀ n ∈ m.each, P n) {ty : Ty}
    (hty : b.type? = some ty) : ∀ m ∈ ty.each, P m := by
  obtain ⟨members, sawUnknown, sawInvalid⟩ := b
  rcases members with _ | ⟨a, _ | ⟨other, rest⟩⟩
  · cases hty
  · obtain rfl : a = ty := Option.some_inj.mp hty
    exact (h a (List.mem_singleton_self a)).2
  · obtain rfl : Ty.union (a :: other :: rest) = ty := Option.some_inj.mp hty
    exact fun m hm => (h m hm).1

/-- It holds of the union, if it holds of a union whenever it holds of the members. -/
theorem forall_unionAll (hunknown : P .unknown) (hinvalid : P .invalid)
    (hunion : ∀ members, P (.union members) ↔ ∀ m ∈ members, P m) {types : List Ty}
    (h : ∀ ty ∈ types, P ty) : P (Ty.unionAll types) := by
  have hmembers : ∀ m ∈ (types.foldl add {}).members, P m := by
    refine forall_foldl_add fun ty hty => ?_
    cases ty with
    | union members => exact (hunion members).mp (h _ hty)
    | _ => exact List.forall_mem_singleton.mpr (h _ hty)
  rw [Ty.unionAll]
  generalize types.foldl add {} = b at hmembers
  obtain ⟨members, sawUnknown, sawInvalid⟩ := b
  rcases members with _ | ⟨a, _ | ⟨other, rest⟩⟩
  · change P (if sawInvalid && !sawUnknown then .invalid else .unknown)
    split
    · exact hinvalid
    · exact hunknown
  · exact hmembers a (List.mem_singleton_self a)
  · exact (hunion _).mpr hmembers

end

/-- What the members collected so far are like. -/
structure Proper (members : List Ty) : Prop extends Ty.Members members where
  wellFormed : ∀ m ∈ members, m.WellFormed

theorem Proper.nil : Proper [] where
  plain := nofun
  distinct := .nil
  wellFormed := nofun

theorem Proper.insert {members : List Ty} (h : Proper members) {ty : Ty} (hty : ty.WellFormed)
    (hplain : ty.isPlain = true) : Proper (UnionBuilder.insert members ty) := by
  rw [UnionBuilder.insert]
  split
  · exact h
  · rename_i hnew
    refine ⟨⟨?_, ?_⟩, ?_⟩
    · exact List.forall_mem_append.mpr ⟨h.plain, List.forall_mem_singleton.mpr hplain⟩
    · refine List.pairwise_append.mpr ⟨h.distinct, List.pairwise_singleton _ ty, ?_⟩
      intro m hm other hother
      obtain rfl := List.mem_singleton.mp hother
      exact Bool.eq_false_iff.mpr fun hsame => hnew (List.any_eq_true.mpr ⟨m, hm, hsame⟩)
    · exact List.forall_mem_append.mpr ⟨h.wellFormed, List.forall_mem_singleton.mpr hty⟩

theorem Proper.add {b : UnionBuilder} (h : Proper b.members) {ty : Ty} (hty : ty.WellFormed) :
    Proper (b.add ty).members := by
  cases ty with
  | unknown | invalid => exact h
  | union members =>
    have hplain := (hty.canonical members rfl).2.plain
    exact List.foldlRecOn members _ h fun _ h m hm => h.insert (hty.part m hm) (hplain m hm)
  | _ => exact h.insert hty rfl

theorem Proper.collected {types : List Ty} (h : ∀ ty ∈ types, ty.WellFormed) :
    Proper (types.foldl UnionBuilder.add {}).members :=
  List.foldlRecOn (motive := fun b : UnionBuilder => Proper b.members) types _ .nil
    fun _ hb ty hty => hb.add (h ty hty)

theorem Proper.type?_wellFormed {b : UnionBuilder} (h : Proper b.members) {ty : Ty}
    (hty : b.type? = some ty) : ty.WellFormed := by
  obtain ⟨members, sawUnknown, sawInvalid⟩ := b
  rcases members with _ | ⟨a, _ | ⟨other, rest⟩⟩
  · cases hty
  · obtain rfl : a = ty := Option.some_inj.mp hty
    exact h.wellFormed a (List.mem_singleton_self a)
  · obtain rfl : Ty.union (a :: other :: rest) = ty := Option.some_inj.mp hty
    refine .intro (fun members heq => ?_) h.wellFormed
    obtain rfl := Ty.union.inj heq
    exact ⟨by simp, h.toMembers⟩

theorem Proper.type_wellFormed {b : UnionBuilder} (h : Proper b.members) : b.type.WellFormed := by
  rw [type]
  cases hty : b.type? with
  | some ty => exact h.type?_wellFormed hty
  | none =>
    simp only [Option.getD_none]
    split
    · exact .invalid
    · exact .unknown

end UnionBuilder

namespace Ty.WellFormed

theorem unionAll {types : List Ty} (h : ∀ ty ∈ types, ty.WellFormed) :
    (Ty.unionAll types).WellFormed :=
  (UnionBuilder.Proper.collected h).type_wellFormed

/-- Two types that make a union of two. -/
theorem pair {a b : Ty} (ha : a.WellFormed) (hb : b.WellFormed)
    (h : Ty.unionAll [a, b] = .union [a, b]) : (Ty.union [a, b]).WellFormed := by
  rw [← h]
  exact unionAll (List.forall_mem_cons.mpr ⟨ha, List.forall_mem_singleton.mpr hb⟩)

theorem join {a b : Ty} (ha : a.WellFormed) (hb : b.WellFormed) : (a.join b).WellFormed := by
  rw [Ty.join]
  split
  · split
    · exact .unknown
    · exact .invalid
  · exact hb
  · exact ha
  · split
    · exact ha
    · apply unionAll
      exact List.forall_mem_cons.mpr ⟨ha, List.forall_mem_singleton.mpr hb⟩

end Ty.WellFormed

end LuaTypes
