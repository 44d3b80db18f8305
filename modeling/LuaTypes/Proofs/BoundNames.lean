import LuaTypes.Proofs.Substitution

/-!
Names that are left. Substituting goes into every part of a type except the fields of doc tables, so
that in a type that does not nest too deep a bound name is left only there.
-/

namespace LuaTypes

/-! Types by their parts. -/

theorem Signature.sizeOf_types_lt (sig : Signature) : ∀ ty ∈ sig.types, sizeOf ty < sizeOf sig := by
  obtain ⟨colon, params, vararg?, ret, typeParams⟩ := sig
  simp only [Signature.mk.sizeOf_spec]
  refine Signature.forall_types (fun p hp => ?_) (show sizeOf ret < _ by omega) ?_
  · have hlt := List.sizeOf_lt_of_mem hp
    obtain ⟨name, ty⟩ := p
    simp only [Field.mk.sizeOf_spec] at hlt
    change sizeOf ty < _
    omega
  · rintro v ⟨⟩
    simp only [Option.some.sizeOf_spec]
    omega

namespace Ty

theorem sizeOf_walked_lt (ty : Ty) : ∀ part ∈ ty.walked true, sizeOf part < sizeOf ty := by
  intro part hpart
  cases ty with
  | unknown | invalid | prim p | cls c => cases hpart
  | union members =>
    have hlt : sizeOf part < sizeOf members := List.sizeOf_lt_of_mem hpart
    simp only [union.sizeOf_spec]
    omega
  | generic base args =>
    simp only [generic.sizeOf_spec]
    rcases List.mem_cons.mp hpart with rfl | hpart
    · omega
    · have hlt := List.sizeOf_lt_of_mem hpart
      omega
  | func main overloads =>
    obtain ⟨sig, hsig, hpart⟩ := List.mem_flatMap.mp hpart
    have hlt := sig.sizeOf_types_lt part hpart
    simp only [func.sizeOf_spec]
    rcases List.mem_cons.mp hsig with rfl | hsig
    · omega
    · have hlt' := List.sizeOf_lt_of_mem hsig
      omega
  | array element =>
    obtain rfl := List.mem_singleton.mp hpart
    simp only [array.sizeOf_spec]
    omega
  | tuple items =>
    have hlt : sizeOf part < sizeOf items := List.sizeOf_lt_of_mem hpart
    simp only [tuple.sizeOf_spec]
    omega

/-- Something holds of every type if it holds of a type whenever it holds of the parts that a walk
goes into. -/
@[elab_as_elim]
theorem induction_walked {P : Ty → Prop}
    (step : ∀ ty : Ty, (∀ part ∈ ty.walked true, P part) → P ty) (ty : Ty) : P ty :=
  step ty fun part hpart =>
    have := sizeOf_walked_lt ty part hpart
    induction_walked step part
termination_by sizeOf ty

/-- The type nests so many levels deep at most. Doc tables are not looked into. -/
def NestsWithin : Nat → Ty → Prop
  | 0, _ => False
  | n + 1, ty => ∀ part ∈ ty.walked true, part.NestsWithin n

instance decidableNestsWithin : (n : Nat) → (ty : Ty) → Decidable (ty.NestsWithin n)
  | 0, _ => .isFalse id
  | n + 1, ty =>
    have := decidableNestsWithin n
    inferInstanceAs (Decidable (∀ part ∈ ty.walked true, part.NestsWithin n))

theorem mentions_iff {ty : Ty} {c : ClassTy} :
    ty.Mentions c ↔ ty = .cls c ∨ ∃ part ∈ ty.walked true, part.Mentions c := by
  constructor
  · intro h
    cases h with
    | here => exact .inl rfl
    | part hpart h => exact .inr ⟨_, hpart, h⟩
  · rintro (rfl | ⟨part, hpart, h⟩)
    · exact .here
    · exact .part hpart h

@[simp] theorem mentions_prim {p : Prim} {c : ClassTy} : ¬(prim p).Mentions c := by
  rw [mentions_iff]
  simp [walked]

@[simp] theorem mentions_cls {c d : ClassTy} : (cls d).Mentions c ↔ d = c := by
  rw [mentions_iff]
  simp [walked]

@[simp] theorem mentions_array {element : Ty} {c : ClassTy} :
    (array element).Mentions c ↔ element.Mentions c := by
  rw [mentions_iff]
  simp [walked]

@[simp] theorem mentions_generic {base : Ty} {args : List Ty} {c : ClassTy} :
    (generic base args).Mentions c ↔ base.Mentions c ∨ ∃ arg ∈ args, arg.Mentions c := by
  rw [mentions_iff]
  simp [walked]

end Ty

/-! The class nodes that are named in a type. -/

theorem Ty.classNames_cls (c : ClassTy) :
    (Ty.cls c).classNames = c.name :: Field.allClassNames c.docFields := by
  obtain ⟨name, _, _, origin, _⟩ := c
  cases origin <;> rfl

theorem Ty.mem_allClassNames {name : String} {types : List Ty} :
    name ∈ Ty.allClassNames types ↔ ∃ ty ∈ types, name ∈ ty.classNames := by
  induction types with
  | nil => simp [Ty.allClassNames]
  | cons ty rest ih => simp [Ty.allClassNames, ih]

theorem Field.mem_allClassNames {name : String} {fields : List Field} :
    name ∈ Field.allClassNames fields ↔ ∃ f ∈ fields, name ∈ f.ty.classNames := by
  induction fields with
  | nil => simp [Field.allClassNames]
  | cons f rest ih =>
    obtain ⟨_, ty⟩ := f
    simp [Field.allClassNames, ih]

theorem Signature.mem_classNames {name : String} {sig : Signature} :
    name ∈ sig.classNames ↔ ∃ ty ∈ sig.types, name ∈ ty.classNames := by
  obtain ⟨colon, params, vararg?, ret, typeParams⟩ := sig
  cases vararg? with
  | none => simp [Signature.classNames, Signature.types, Field.mem_allClassNames]
  | some v =>
    simp [Signature.classNames, Signature.types, Field.mem_allClassNames, or_assoc, or_comm]

theorem Signature.mem_allClassNames {name : String} {sigs : List Signature} :
    name ∈ Signature.allClassNames sigs ↔ ∃ sig ∈ sigs, name ∈ sig.classNames := by
  induction sigs with
  | nil => simp [Signature.allClassNames]
  | cons sig rest ih => simp [Signature.allClassNames, ih]

namespace Ty

/-- The class nodes of a type that is no class are those of its parts. -/
theorem exists_walked_of_mem_classNames {name : String} {ty : Ty} (h : name ∈ ty.classNames) :
    (∃ c, ty = .cls c) ∨ ∃ part ∈ ty.walked true, name ∈ part.classNames := by
  cases ty with
  | unknown | invalid | prim p => cases h
  | cls c => exact .inl ⟨c, rfl⟩
  | union members | tuple items => exact .inr (mem_allClassNames.mp h)
  | generic base args =>
    rcases List.mem_append.mp h with h | h
    · exact .inr ⟨base, List.mem_cons_self, h⟩
    · obtain ⟨arg, harg, h⟩ := mem_allClassNames.mp h
      exact .inr ⟨arg, List.mem_cons_of_mem _ harg, h⟩
  | func main overloads =>
    have hsig : ∃ sig ∈ main :: overloads, name ∈ sig.classNames := by
      rcases List.mem_append.mp h with h | h
      · exact ⟨main, List.mem_cons_self, h⟩
      · obtain ⟨sig, hsig, h⟩ := Signature.mem_allClassNames.mp h
        exact ⟨sig, List.mem_cons_of_mem _ hsig, h⟩
    obtain ⟨sig, hsig, h⟩ := hsig
    obtain ⟨ty, hty, h⟩ := Signature.mem_classNames.mp h
    exact .inr ⟨ty, List.mem_flatMap.mpr ⟨sig, hsig, hty⟩, h⟩
  | array element => exact .inr ⟨element, List.mem_singleton_self _, h⟩

/-- A class node is one that a walk comes to, or lies in the fields of a doc table that it comes
to. -/
theorem mem_classNames_iff {name : String} {ty : Ty} : name ∈ ty.classNames ↔
    ∃ c, ty.Mentions c ∧ (name = c.name ∨ name ∈ Field.allClassNames c.docFields) := by
  constructor
  · induction ty using induction_walked with
    | step ty ih =>
      intro h
      rcases exists_walked_of_mem_classNames h with ⟨c, rfl⟩ | ⟨part, hpart, h⟩
      · rw [classNames_cls] at h
        exact ⟨c, .here, List.mem_cons.mp h⟩
      · obtain ⟨c, hc, hname⟩ := ih part hpart h
        exact ⟨c, .part hpart hc, hname⟩
  · rintro ⟨c, hc, hname⟩
    induction hc with
    | here => exact classNames_cls c ▸ List.mem_cons.mpr hname
    | part hpart _ ih => exact classNames_walked _ hpart ih

end Ty

/-! Substituting. -/

namespace Ty

variable {b : Bindings} {depth : Nat} {c : ClassTy}

/-- A union mentions no other classes than the types of which it is made. -/
theorem exists_mentions_of_unionAll {types : List Ty} (h : (unionAll types).Mentions c) :
    ∃ ty ∈ types, ty.Mentions c := by
  by_contra hnone
  have hnone : ∀ ty ∈ types, ¬ty.Mentions c := fun ty hty hc => hnone ⟨ty, hty, hc⟩
  have hleaf {ty : Ty} (hcls : ty ≠ .cls c) (hwalked : ty.walked true = []) : ¬ty.Mentions c := by
    rw [mentions_iff, hwalked]
    simp [hcls]
  refine UnionBuilder.forall_unionAll (P := fun ty => ¬ty.Mentions c) (hleaf nofun rfl)
    (hleaf nofun rfl) (fun members => ?_) hnone h
  rw [mentions_iff]
  simp [walked]

/-- A type in which classes are replaced mentions the bound types and what its replaced parts
mention. -/
theorem exists_walked_of_mentions_replaced {ty : Ty} (hdepth : depth ≤ maxSubstDepth)
    (h : (ty.replaced b depth).Mentions c) :
    (∃ d, ty = .cls d ∧ ((b.get? d.name).getD (.cls d)).Mentions c) ∨
      ∃ part ∈ ty.walked true, (part.replaced b (depth + 1)).Mentions c := by
  have hwithin : ¬maxSubstDepth < depth := by omega
  have hparts {parts : List Ty} {whole : Ty} (h : whole.Mentions c) (hcls : whole ≠ .cls c)
      (hwalked : whole.walked true = parts.map (replaced b (depth + 1))) :
      ∃ part ∈ parts, (part.replaced b (depth + 1)).Mentions c := by
    obtain ⟨_, hmem, hc⟩ := (mentions_iff.mp h).resolve_left hcls
    obtain ⟨part, hpart, rfl⟩ := List.mem_map.mp (hwalked ▸ hmem)
    exact ⟨part, hpart, hc⟩
  cases ty with
  | unknown | invalid | prim p =>
    rw [replaced, if_neg hwithin] at h
    exact absurd h (by rw [mentions_iff]; simp [walked])
  | cls d =>
    rw [replaced, if_neg hwithin] at h
    exact .inl ⟨d, rfl, h⟩
  | union members =>
    rw [replaced, if_neg hwithin, replacedAll_eq_map] at h
    obtain ⟨_, hmem, hc⟩ := exists_mentions_of_unionAll h
    obtain ⟨member, hmember, rfl⟩ := List.mem_map.mp hmem
    exact .inr ⟨member, hmember, hc⟩
  | generic base args =>
    rw [replaced, if_neg hwithin, replacedAll_eq_map] at h
    exact .inr (hparts h (by simp) rfl)
  | func main overloads =>
    rw [replaced, if_neg hwithin, Signature.replacedAll_eq_map] at h
    refine .inr (hparts h (by simp) ?_)
    simp only [walked, List.flatMap_cons, List.map_append, Signature.types_replaced,
      List.flatMap_map, List.map_flatMap]
  | array element =>
    rw [replaced, if_neg hwithin] at h
    exact .inr (hparts h (by simp) rfl)
  | tuple items =>
    rw [replaced, if_neg hwithin, replacedAll_eq_map] at h
    exact .inr (hparts h (by simp) rfl)

/-- Where a type does not nest too deep, what is mentioned after replacing is a class that is not
bound and was mentioned before, or is mentioned by a bound type. -/
theorem NestsWithin.mentions_replaced {room : Nat} {ty : Ty} (h : ty.NestsWithin room)
    (hroom : room + depth = maxSubstDepth + 1) (hc : (ty.replaced b depth).Mentions c) :
    (ty.Mentions c ∧ b.get? c.name = none) ∨
      ∃ name bound, b.get? name = some bound ∧ bound.Mentions c := by
  induction room generalizing ty depth with
  | zero => exact h.elim
  | succ room ih =>
    rcases exists_walked_of_mentions_replaced (by omega) hc with ⟨d, rfl, hd⟩ | ⟨part, hpart, hc⟩
    · cases hbound : b.get? d.name with
      | none =>
        rw [hbound, Option.getD_none, mentions_cls] at hd
        exact .inl ⟨mentions_cls.mpr hd, hd ▸ hbound⟩
      | some bound =>
        rw [hbound, Option.getD_some] at hd
        exact .inr ⟨d.name, bound, hbound, hd⟩
    · exact (ih (h part hpart) (by omega) hc).imp_left fun ⟨hc, hfree⟩ => ⟨.part hpart hc, hfree⟩

end Ty

/-- The bound types hold no bound names. -/
def Bindings.Closed (b : Bindings) : Prop :=
  ∀ name bound, b.get? name = some bound → ∀ other ∈ bound.classNames, b.get? other = none

/-- Substituting in a type that does not nest too deep, where bound types hold no bound names,
leaves no class node that is named like a bound parameter, except in the fields of doc tables that
the type has and keeps. -/
theorem Bindings.apply_leaves {b : Bindings} {ty : Ty} (hnests : ty.NestsWithin maxSubstDepth)
    (hclosed : b.Closed) :
    (∀ c, (b.apply ty).Mentions c → b.get? c.name = none) ∧
    (∀ name, (b.get? name).isSome = true → (name ∈ (b.apply ty).classNames ↔
      ∃ d, ty.Mentions d ∧ (b.apply ty).Mentions d ∧ name ∈ Field.allClassNames d.docFields)) ∧
    ((∀ d, ty.Mentions d → ∀ name ∈ Field.allClassNames d.docFields, b.get? name = none) →
      ∀ name ∈ (b.apply ty).classNames, b.get? name = none) := by
  have hcases (c : ClassTy) (hc : (b.apply ty).Mentions c) :
      (ty.Mentions c ∧ b.get? c.name = none) ∨
        ∀ name ∈ (Ty.cls c).classNames, b.get? name = none := by
    rw [apply_eq_replaced] at hc
    refine (hnests.mentions_replaced rfl hc).imp_right ?_
    rintro ⟨_, bound, hget, hc⟩ name hname
    refine hclosed _ bound hget name (Ty.mem_classNames_iff.mpr ⟨c, hc, ?_⟩)
    exact List.mem_cons.mp (Ty.classNames_cls c ▸ hname)
  have hfree (c : ClassTy) (hc : (b.apply ty).Mentions c) : b.get? c.name = none :=
    (hcases c hc).elim (·.2) fun h => h c.name (Ty.name_mem_classNames c)
  have hleft (name : String) (hname : (b.get? name).isSome = true) :
      name ∈ (b.apply ty).classNames ↔
        ∃ d, ty.Mentions d ∧ (b.apply ty).Mentions d ∧ name ∈ Field.allClassNames d.docFields := by
    rw [Ty.mem_classNames_iff]
    constructor
    · rintro ⟨d, hd, rfl | hfield⟩
      · simp [hfree d hd] at hname
      · rcases hcases d hd with ⟨hmentions, -⟩ | hnone
        · exact ⟨d, hmentions, hd, hfield⟩
        · rw [hnone name (Ty.classNames_cls d ▸ List.mem_cons_of_mem _ hfield)] at hname
          cases hname
    · rintro ⟨d, -, hd, hfield⟩
      exact ⟨d, hd, .inr hfield⟩
  refine ⟨hfree, hleft, fun hfields name hname => ?_⟩
  by_contra hsome
  rw [← ne_eq, Option.ne_none_iff_isSome] at hsome
  obtain ⟨d, hd, -, hfield⟩ := (hleft name hsome).mp hname
  simp [hfields d hd name hfield] at hsome

/-- A function that takes a type parameter and returns a doc table with a field of that type. -/
def Signature.boxing : Signature :=
  let t : Ty := .cls (.deferred "T" 0)
  ⟨false, [⟨"value", t⟩], none, .cls (.docTable "10|a.lua|3" [⟨"x", t⟩]), [⟨"T", none⟩]⟩

theorem Bindings.closed_number (name : String) : Bindings.Closed ⟨[(name, .number)]⟩ := by
  intro _ bound hget
  obtain rfl : bound = .number :=
    OrderedMap.All.get? (P := (· = .number)) (List.forall_mem_singleton.mpr rfl) hget
  exact List.forall_mem_nil _

/-- The parameter of the function is replaced, and the field of its result is not. -/
theorem Bindings.apply_leaves_boxing :
    let b : Bindings := ⟨[("T", .number)]⟩
    let boxing : Ty := .func .boxing []
    boxing.NestsWithin maxSubstDepth ∧ b.Closed ∧
    (∀ c, (b.apply boxing).Mentions c → b.get? c.name = none) ∧
    "T" ∈ (b.apply boxing).classNames ∧
    ∃ d, boxing.Mentions d ∧ (b.apply boxing).Mentions d ∧
      "T" ∈ Field.allClassNames d.docFields := by
  intro b boxing
  have hnests : boxing.NestsWithin maxSubstDepth := by decide
  have hclosed : b.Closed := closed_number "T"
  obtain ⟨hfree, hleft, -⟩ := apply_leaves hnests hclosed
  have hmem : "T" ∈ (b.apply boxing).classNames := by decide
  exact ⟨hnests, hclosed, hfree, hmem, (hleft "T" rfl).mp hmem⟩

/-- The field of a doc table is left as it is. -/
theorem Bindings.docTableField_left :
    let b : Bindings := ⟨[("T", .number)]⟩
    let ty : Ty := .cls (.docTable "10|a.lua|3" [⟨"x", .cls (.deferred "T" 0)⟩])
    ty.WellFormed ∧ ty.NestsWithin maxSubstDepth ∧ b.Closed ∧
    ¬∀ name ∈ (b.apply ty).classNames, b.get? name = none := by
  intro b ty
  refine ⟨.cls (List.forall_mem_singleton.mpr (.cls_of_docFields rfl)), by decide,
    closed_number "T", fun h => ?_⟩
  exact absurd (h "T" (by decide)) (by decide)

end LuaTypes
