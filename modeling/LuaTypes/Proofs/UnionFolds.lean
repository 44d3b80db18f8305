import LuaTypes.Proofs.Shown

/-!
Unions type by type. The union of a list is made in one pass, which remembers the sentinels that it
meets and drops equal members as they come; joining the types from the left looks at two types at a
time. Both make the same type, with its members in the same order, unless the join starts at the
unknown type and meets nothing but invalid ones.
-/

namespace LuaTypes

namespace Ty.WellFormed

variable {a b : Ty} (ha : a.WellFormed) (hb : b.WellFormed)

include ha hb

/-- A type that is no sentinel is given by its members in their order. -/
theorem eq_of_each (hva : a.isInvalid = false) (hvb : b.isInvalid = false) (h : a.each = b.each) :
    a = b := by
  -- A union has two members at least, so no other type has them as its only one.
  have hlone {members : List Ty} {ty : Ty} (hunion : (Ty.union members).WellFormed) :
      members ≠ [ty] := by
    rintro rfl
    exact absurd (hunion.canonical _ rfl).1 (Nat.not_succ_le_self 1)
  cases a with
  | unknown | invalid => cases hva
  | union members =>
    cases b with
    | unknown | invalid => cases hvb
    | union members' => exact congrArg Ty.union h
    | _ => exact absurd h (hlone ha)
  | _ =>
    cases b with
    | unknown | invalid => cases hvb
    | union members' => exact absurd h.symm (hlone hb)
    | _ => exact List.singleton_inj.mp h

end Ty.WellFormed

namespace UnionBuilder

open Ty (WellFormed)

/-- Something was added: a member, or a sentinel. -/
def Started (b : UnionBuilder) : Prop :=
  b.members ≠ [] ∨ b.sawUnknown = true ∨ b.sawInvalid = true

variable {b : UnionBuilder} {ty : Ty}

theorem add_of_isInvalid (hvalid : ty.isInvalid = true) : b.add ty = { b with
    sawUnknown := b.sawUnknown || ty.isUnknown
    sawInvalid := b.sawInvalid || !ty.isUnknown } := by
  cases ty with
  | unknown | invalid => simp [add, Ty.isUnknown]
  | _ => cases hvalid

theorem members_add_ne_nil (hty : ty.WellFormed) (hvalid : ty.isInvalid = false) :
    (b.add ty).members ≠ [] := by
  rw [members_add hty hvalid]
  intro hnil
  obtain ⟨hold, hnew⟩ := List.append_eq_nil_iff.mp hnil
  rw [hold] at hnew
  exact hty.each_ne_nil (by simpa using hnew)

theorem started_add (hty : ty.WellFormed) : (b.add ty).Started := by
  cases hvalid : ty.isInvalid with
  | false => exact .inl (members_add_ne_nil hty hvalid)
  | true =>
    rw [add_of_isInvalid hvalid]
    cases hunknown : ty.isUnknown with
    | true => exact .inr (.inl (by simp))
    | false => exact .inr (.inr (by simp))

theorem type_of_nil (hnil : b.members = []) :
    b.type = if b.sawInvalid && !b.sawUnknown then .invalid else .unknown := by
  rw [type, type?, hnil]
  rfl

/-- Where there are members, no sentinel matters. -/
theorem type_congr {b' : UnionBuilder} (hne : b.members ≠ []) (h : b.members = b'.members) :
    b.type = b'.type := by
  obtain ⟨first, rest, hmembers⟩ := List.exists_cons_of_ne_nil hne
  rw [type, type, type?, type?, ← h, hmembers]
  cases rest <;> rfl

/-- A sentinel is forgotten once there are members. -/
theorem type_add_of_isInvalid (hb : Proper b.members) (hstarted : b.Started)
    (hvalid : ty.isInvalid = true) : (b.add ty).type = b.type.join ty := by
  have hadd := add_of_isInvalid (b := b) hvalid
  have hmembers : (b.add ty).members = b.members := by rw [hadd]
  by_cases hnil : b.members = []
  · rw [Ty.join_of_isInvalid (isInvalid_type hnil) hvalid, type_of_nil (hmembers.trans hnil),
      type_of_nil hnil, hadd]
    have hsaw : b.sawUnknown = true ∨ b.sawInvalid = true := hstarted.resolve_left (· hnil)
    cases hunknown : b.sawUnknown with
    | true => simp [Ty.isUnknown]
    | false =>
      have hinvalid : b.sawInvalid = true := by simpa [hunknown] using hsaw
      cases ty.isUnknown <;> simp [hinvalid, Ty.isUnknown]
  · rw [Ty.join_of_isInvalid_right (each_type hb hnil).2 hvalid]
    exact (type_congr hnil hmembers.symm).symm

/-- What is no sentinel is joined to the members so far. -/
theorem type_add_of_valid (hb : Proper b.members) (hty : ty.WellFormed)
    (hvalid : ty.isInvalid = false) : (b.add ty).type = b.type.join ty := by
  have hmembers := members_add hty hvalid b
  have hadded := hb.add hty
  obtain ⟨heach, hvalid'⟩ := each_type hadded (members_add_ne_nil hty hvalid)
  by_cases hnil : b.members = []
  · rw [Ty.join_of_isInvalid_left (isInvalid_type hnil) hvalid]
    refine hadded.type_wellFormed.eq_of_each hty hvalid' hvalid ?_
    rw [heach, hmembers, hnil]
    simp
  · obtain ⟨hold, hvalidOld⟩ := each_type hb hnil
    obtain ⟨hjoin, hvalidJoin⟩ := hb.type_wellFormed.each_join hty hvalidOld hvalid
    refine hadded.type_wellFormed.eq_of_each (hb.type_wellFormed.join hty) hvalid' hvalidJoin ?_
    rw [heach, hmembers, hjoin, hold]

/-- To add a type to a union in the making is to join it to the union. -/
theorem type_add (hb : Proper b.members) (hstarted : b.Started) (hty : ty.WellFormed) :
    (b.add ty).type = b.type.join ty := by
  cases hvalid : ty.isInvalid with
  | true => exact type_add_of_isInvalid hb hstarted hvalid
  | false => exact type_add_of_valid hb hty hvalid

theorem type_foldl_add {types : List Ty} (h : ∀ ty ∈ types, ty.WellFormed) (hb : Proper b.members)
    (hstarted : b.Started) : (types.foldl add b).type = types.foldl Ty.join b.type := by
  induction types generalizing b with
  | nil => rfl
  | cons ty types ih =>
    obtain ⟨hty, htypes⟩ := List.forall_mem_cons.mp h
    rw [List.foldl_cons, List.foldl_cons, ih htypes (hb.add hty) (started_add hty),
      type_add hb hstarted hty]

/-- The union of one type is the type. -/
theorem type_add_empty (hty : ty.WellFormed) : (add {} ty).type = ty := by
  cases hvalid : ty.isInvalid with
  | true =>
    cases ty with
    | unknown | invalid => rfl
    | _ => cases hvalid
  | false =>
    rw [type_add_of_valid .nil hty hvalid]
    exact Ty.join_of_isInvalid_left rfl hvalid

end UnionBuilder

namespace Ty

theorem unknown_join {ty : Ty} (h : ty ≠ .invalid) : Ty.unknown.join ty = ty := by
  cases ty with
  | invalid => exact absurd rfl h
  | _ => rfl

theorem invalid_join (ty : Ty) : Ty.invalid.join ty = ty := by
  cases ty <;> rfl

/-- Which sentinel joining starts at makes no difference once it meets a type that is not the
invalid one. -/
theorem foldl_join_unknown {types : List Ty} (h : ∃ ty ∈ types, ty ≠ .invalid) :
    types.foldl join .unknown = types.foldl join .invalid := by
  induction types with
  | nil => simp at h
  | cons ty types ih =>
    rw [List.foldl_cons, List.foldl_cons, invalid_join]
    by_cases hty : ty = .invalid
    · subst hty
      exact ih (by simpa using h)
    · rw [unknown_join hty]

theorem foldl_join_of_invalid {types : List Ty} (h : ∀ ty ∈ types, ty = .invalid) (start : Ty) :
    types.foldl join start = start := by
  induction types with
  | nil => rfl
  | cons ty types ih =>
    obtain ⟨rfl, htypes⟩ := List.forall_mem_cons.mp h
    have hstart : start.join .invalid = start := by cases start <;> rfl
    rw [List.foldl_cons, hstart, ih htypes]

end Ty

/-- The union of a list of types is what comes of joining them from the left, starting at the first
one. Starting at the unknown type gives the same, just unless there are types and all of them are
invalid: then the union is invalid, and such joins stay at the unknown type. -/
theorem Ty.WellFormed.unionAll_eq_foldl {types : List Ty} (h : ∀ ty ∈ types, ty.WellFormed) :
    Ty.unionAll types = types.head?.elim .unknown (types.tail.foldl Ty.join) ∧
    (Ty.unionAll types = types.foldl Ty.join .unknown ↔
      ¬(types ≠ [] ∧ ∀ ty ∈ types, ty = .invalid)) ∧
    (types ≠ [] → (∀ ty ∈ types, ty = .invalid) →
      Ty.unionAll types = .invalid ∧ types.foldl Ty.join .unknown = .unknown) := by
  cases types with
  | nil => exact ⟨rfl, iff_of_true rfl fun h => h.1 rfl, fun h => absurd rfl h⟩
  | cons first rest =>
    obtain ⟨hfirst, hrest⟩ := List.forall_mem_cons.mp h
    have hunion : Ty.unionAll (first :: rest) = rest.foldl Ty.join first := by
      rw [Ty.unionAll, List.foldl_cons, UnionBuilder.type_foldl_add hrest
        (UnionBuilder.Proper.nil.add (b := {}) hfirst) (UnionBuilder.started_add hfirst),
        UnionBuilder.type_add_empty hfirst]
    have hinvalid (hall : ∀ ty ∈ first :: rest, ty = .invalid) :
        Ty.unionAll (first :: rest) = .invalid ∧
          (first :: rest).foldl Ty.join .unknown = .unknown := by
      rw [hunion, foldl_join_of_invalid (List.forall_mem_cons.mp hall).2,
        foldl_join_of_invalid hall]
      exact ⟨hall first List.mem_cons_self, rfl⟩
    refine ⟨hunion, ⟨fun heq hsome => ?_, fun hsome => ?_⟩, fun _ => hinvalid⟩
    · obtain ⟨hall, hfold⟩ := hinvalid hsome.2
      rw [hall, hfold] at heq
      cases heq
    · have hvalid : ∃ ty ∈ first :: rest, ty ≠ .invalid := by
        by_contra hnone
        push Not at hnone
        exact hsome ⟨List.cons_ne_nil _ _, hnone⟩
      rw [hunion, foldl_join_unknown hvalid, List.foldl_cons, invalid_join]

/-- A sentinel on either side of a union, and types that are there already. -/
theorem Ty.WellFormed.unionAll_eq_foldl_overlapping :
    let types : List Ty := [.invalid, .union [.number, .string], .unknown,
      .union [.nil, .number], .string]
    Ty.unionAll types = .union [.number, .string, .nil] ∧
      types.foldl Ty.join .unknown = .union [.number, .string, .nil] := by
  intro types
  have hwellFormed : ∀ ty ∈ types, ty.WellFormed := by
    simp only [types, List.forall_mem_cons]
    exact ⟨.invalid, .pair (.prim .number) (.prim .string) rfl, .unknown,
      .pair (.prim .nil) (.prim .number) rfl, .prim .string, List.forall_mem_nil _⟩
  obtain ⟨hunion, hunknown, -⟩ := unionAll_eq_foldl hwellFormed
  have hmade : Ty.unionAll types = .union [.number, .string, .nil] := hunion.trans rfl
  refine ⟨hmade, (hunknown.mpr fun h => ?_).symm.trans hmade⟩
  cases h.2 .string (by simp [types])

end LuaTypes
