import LuaTypes.Program.Node
import LuaTypes.Proofs.WellFormed

/-!
Invariants of types. An invariant is a property of values that everything which makes types keeps.
The result of a function stands for any number of values, so it is enough that each of them has the
property, whether or not a tuple of them has it too.
-/

namespace LuaTypes

/-- The values that the result of a function stands for. -/
def Ty.returned : Ty → List Ty
  | .tuple items => items
  | ty => [ty]

/-- All values in a signature have a property. Type parameters are bound to whole results, so there
may be some only if tuples may have it too. -/
structure Signature.Of (P : Ty → Prop) (tuples : Prop) (sig : Signature) : Prop where
  params : ∀ p ∈ sig.params, P p.ty
  vararg : ∀ v ∈ sig.vararg?, P v
  ret : ∀ v ∈ sig.ret.returned, P v
  typeParams : sig.isGeneric = true → tuples

structure TyInvariant where
  Holds : Ty → Prop
  /-- A tuple of values is a value. -/
  tuples : Prop
  /-- All values of the node together are a value. -/
  alone (id : NodeId) : Prop
  unknown : Holds .unknown
  invalid : Holds .invalid
  prim (p : Prim) : Holds (.prim p)
  cls {c : ClassTy} : Holds (.cls c) ↔ ∀ f ∈ c.docFields, Holds f.ty
  generic {base : Ty} {args : List Ty} :
    Holds (.generic base args) ↔ Holds base ∧ ∀ arg ∈ args, Holds arg
  func {main : Signature} {overloads : List Signature} :
    Holds (.func main overloads) ↔ ∀ sig ∈ main :: overloads, sig.Of Holds tuples
  array {element : Ty} : Holds (.array element) ↔ Holds element
  tuple {items : List Ty} : Holds (.tuple items) ↔ tuples ∧ ∀ item ∈ items, Holds item
  member {members : List Ty} : Holds (.union members) → ∀ m ∈ members, Holds m
  unionAll {types : List Ty} : (∀ ty ∈ types, Holds ty) → Holds (.unionAll types)

namespace TyInvariant

variable (T : TyInvariant)

/-- Each value that a result stands for has the property. -/
def Returns (ty : Ty) : Prop := ∀ v ∈ ty.returned, T.Holds v

abbrev Sig (sig : Signature) : Prop := sig.Of T.Holds T.tuples

variable {T}

namespace Holds

theorem returned {ty : Ty} (h : T.Holds ty) : T.Returns ty := by
  cases ty with
  | tuple items => exact (T.tuple.mp h).2
  | _ => exact List.forall_mem_singleton.mpr h

theorem cls_of_docFields {c : ClassTy} (h : c.docFields = []) : T.Holds (.cls c) := by
  rw [T.cls, h]
  nofun

theorem each {ty : Ty} (h : T.Holds ty) : ∀ m ∈ ty.each, T.Holds m := by
  cases ty with
  | union members => exact T.member h
  | _ => exact List.forall_mem_singleton.mpr h

theorem classes {ty : Ty} (h : T.Holds ty) : ∀ c ∈ ty.classes, T.Holds (.cls c) := by
  intro c hc
  obtain ⟨m, hm, hmember⟩ := List.mem_filterMap.mp hc
  cases m with
  | cls c' =>
    obtain rfl : c' = c := Option.some_inj.mp hmember
    exact h.each _ hm
  | _ => cases hmember

theorem join {a b : Ty} (ha : T.Holds a) (hb : T.Holds b) : T.Holds (a.join b) := by
  rw [Ty.join]
  split
  · split
    · exact T.unknown
    · exact T.invalid
  · exact hb
  · exact ha
  · split
    · exact ha
    · exact T.unionAll (List.forall_mem_cons.mpr ⟨ha, List.forall_mem_singleton.mpr hb⟩)

theorem foldl_join {types : List Ty} (h : ∀ ty ∈ types, T.Holds ty) {ty : Ty} (hty : T.Holds ty) :
    T.Holds (types.foldl Ty.join ty) :=
  List.foldlRecOn types _ hty fun _ ha b hb => ha.join (h b hb)

/-- What a union builder has collected. -/
theorem collected {types : List Ty} (h : ∀ ty ∈ types, T.Holds ty) :
    ∀ ty ∈ (types.foldl UnionBuilder.add {}).type?, T.Holds ty := by
  intro ty hty
  have hunion : Ty.unionAll types = ty := by
    rw [Ty.unionAll, UnionBuilder.type, Option.mem_def.mp hty, Option.getD_some]
  rw [← hunion]
  exact T.unionAll h

end Holds

namespace Returns

theorem holds {ty : Ty} (h : T.Returns ty) (htuples : T.tuples) : T.Holds ty := by
  cases ty with
  | tuple items => exact T.tuple.mpr ⟨htuples, h⟩
  | _ => exact h _ (List.mem_singleton_self _)

theorem valueAt {ty : Ty} (h : T.Returns ty) (index : Nat) : T.Holds (ty.valueAt index) := by
  cases ty with
  | tuple items =>
    have hitem (item : Ty) (hitem : (items[index]? <|> items.head?) = some item) : T.Holds item := by
      cases hget : items[index]? with
      | some found =>
        simp only [hget] at hitem
        obtain rfl : found = item := Option.some_inj.mp hitem
        exact h found (List.mem_of_getElem? hget)
      | none =>
        simp only [hget] at hitem
        exact h item (List.mem_of_mem_head? hitem)
    rw [Ty.valueAt]
    cases hfound : (items[index]? <|> items.head?) with
    | none => exact T.unknown
    | some item => exact hitem item hfound
  | _ => exact h _ (List.mem_singleton_self _)

end Returns

theorem sig_of_types {sig : Signature} (h : ∀ ty ∈ sig.types, T.Holds ty)
    (htypeParams : sig.isGeneric = true → T.tuples) : T.Sig sig where
  params p hp := h p.ty (List.mem_append_left _ (List.mem_map_of_mem hp))
  vararg v hv :=
    h v (List.mem_append_right _ (List.mem_cons_of_mem _ (Option.mem_toList.mpr hv)))
  ret := (h sig.ret (List.mem_append_right _ List.mem_cons_self)).returned
  typeParams := htypeParams

end TyInvariant

/-! Well-formedness. -/

theorem Signature.of_wellFormed {sig : Signature} :
    sig.Of Ty.WellFormed True ↔ ∀ ty ∈ sig.types, ty.WellFormed := by
  have hret : (∀ v ∈ sig.ret.returned, v.WellFormed) ↔ sig.ret.WellFormed := by
    generalize sig.ret = ret
    cases ret with
    | tuple items => exact ⟨.tuple, (·.part)⟩
    | _ => exact List.forall_mem_singleton
  constructor
  · exact fun h => Signature.forall_types h.params (hret.mp h.ret) h.vararg
  · refine fun h => ⟨fun p hp => ?_, fun v hv => ?_, hret.mpr ?_, fun _ => trivial⟩
    · exact h p.ty (List.mem_append_left _ (List.mem_map_of_mem hp))
    · exact h v (List.mem_append_right _ (List.mem_cons_of_mem _ (Option.mem_toList.mpr hv)))
    · exact h sig.ret (List.mem_append_right _ List.mem_cons_self)

def wellFormed : TyInvariant where
  Holds := Ty.WellFormed
  tuples := True
  alone _ := False
  unknown := .unknown
  invalid := .invalid
  prim := .prim
  cls := ⟨(·.docField), .cls⟩
  generic := ⟨fun h => List.forall_mem_cons.mp h.part, fun h => .generic h.1 h.2⟩
  func := by
    intro main overloads
    constructor
    · exact fun h sig hsig => Signature.of_wellFormed.mpr (h.signature hsig)
    · intro h
      obtain ⟨hmain, hoverloads⟩ := List.forall_mem_cons.mp h
      exact .func (Signature.of_wellFormed.mp hmain) fun sig hsig =>
        Signature.of_wellFormed.mp (hoverloads sig hsig)
  array := ⟨fun h => h.part _ (List.mem_singleton_self _), .array⟩
  tuple := ⟨fun h => ⟨trivial, h.part⟩, fun h => .tuple h.2⟩
  member := (·.part)
  unionAll := .unionAll

end LuaTypes
