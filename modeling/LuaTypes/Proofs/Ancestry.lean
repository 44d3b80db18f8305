import Mathlib.Data.Finset.Card
import LuaTypes.Proofs.ChainMemo
import LuaTypes.Proofs.WellFormed

/-!
Superclass walks. A walk meets no class name twice, and before it reaches its limit it goes on as if
there were none: a class that was met is passed over, and another is followed by its superclasses.
-/

namespace LuaTypes

/-! Direct superclasses. -/

namespace Resolver

variable {r : Resolver}

theorem each_of_superTy? {name : String} {ty : Ty} (h : r.superTy? name = some ty) :
    ty.each = [ty] := by
  rcases superTy?_cases h with ⟨p, rfl⟩ | ⟨details, rfl, -⟩ <;> rfl

theorem superTy?_of_mem_superClasses {d : ClassDetails} {c : ClassTy} (h : c ∈ r.superClasses d) :
    ∃ name ∈ d.supers, r.superTy? name = some (.cls c) := by
  rw [superClasses] at h
  cases hsuper : r.superOf? d with
  | none =>
    rw [hsuper] at h
    cases h
  | some ty =>
    rw [hsuper] at h
    obtain ⟨m, hm, hclass⟩ := List.mem_filterMap.mp h
    obtain rfl : m = .cls c := by
      cases m with
      | cls c' => exact congrArg Ty.cls (Option.some_inj.mp hclass)
      | _ => cases hclass
    let Named (ty : Ty) := ∃ name ∈ d.supers, r.superTy? name = some ty
    have hcollected : ∀ ty ∈ ((d.supers.filterMap r.superTy?).foldl UnionBuilder.add {}).members,
        Named ty := by
      refine UnionBuilder.forall_foldl_add fun ty hty m hm => ?_
      obtain ⟨name, hname, hty⟩ := List.mem_filterMap.mp hty
      rw [each_of_superTy? hty] at hm
      obtain rfl := List.mem_singleton.mp hm
      exact ⟨name, hname, hty⟩
    refine UnionBuilder.forall_type? (P := Named) (fun m hm => ?_) hsuper (.cls c) hm
    obtain ⟨name, hname, hty⟩ := hcollected m hm
    rw [each_of_superTy? hty]
    exact ⟨⟨name, hname, hty⟩, List.forall_mem_singleton.mpr ⟨name, hname, hty⟩⟩

/-- Superclasses are classes at their declaration. -/
theorem superClasses_cases {d : ClassDetails} {c : ClassTy} (h : c ∈ r.superClasses d) :
    c.name ∈ d.supers ∧ ∃ details, c = .declared c.name details ∧
      (details = {} ∨ r.details? c.name = some details) := by
  obtain ⟨name, hname, hsuper⟩ := superTy?_of_mem_superClasses h
  rcases superTy?_cases hsuper with ⟨p, hcls⟩ | ⟨details, hcls, hdetails⟩
  · cases hcls
  · obtain rfl := Ty.cls.inj hcls
    exact ⟨hname, details, rfl, hdetails⟩

end Resolver

namespace ClassTy

/-- The second class is a direct superclass of the first one, as that reads through the memo. -/
def HasSuper (r : Resolver) (memo : ClassMemo) (c d : ClassTy) : Prop :=
  d ∈ r.superClasses (c.readDetails r memo).1

/-- The superclass paths from a class on which no class name comes twice, last class first. -/
inductive Path (r : Resolver) (memo : ClassMemo) (c : ClassTy) : List ClassTy → Prop
  | start : Path r memo c [c]
  | climb {d e : ClassTy} {path : List ClassTy} : Path r memo c (d :: path) → HasSuper r memo d e →
    e.name ∉ (d :: path).map (·.name) → Path r memo c (e :: d :: path)

/-- Neither is a superclass path of the class longer than member chains may nest, nor has it as many
superclasses as a walk may see classes. -/
structure WithinLimits (r : Resolver) (memo : ClassMemo) (c : ClassTy) : Prop where
  paths : ∀ path, Path r memo c path → path.length ≤ maxChainDepth
  reached : ∃ names : Finset String, names.card < maxSuperclassWalk ∧
    ∀ d, Relation.TransGen (HasSuper r memo) c d → d.name ≠ c.name → d.name ∈ names

variable {r : Resolver} {memo : ClassMemo} {c : ClassTy}

theorem Path.nodup {path : List ClassTy} (h : Path r memo c path) :
    (path.map (·.name)).Nodup := by
  induction h with
  | start => exact List.nodup_singleton _
  | climb _ _ hnew ih => exact List.nodup_cons.mpr ⟨hnew, ih⟩

theorem Path.reaches {d : ClassTy} {path : List ClassTy} (h : Path r memo c (d :: path)) :
    ∀ e ∈ d :: path, Relation.ReflTransGen (HasSuper r memo) c e := by
  generalize hpath : d :: path = all at h
  induction h generalizing d path with
  | start => exact List.forall_mem_singleton.mpr .refl
  | climb _ hsuper _ ih =>
    refine List.forall_mem_cons.mpr ⟨?_, ih rfl⟩
    exact (ih rfl _ List.mem_cons_self).tail hsuper

/-- With few superclasses there are only short paths. -/
theorem WithinLimits.of_card {names : Finset String} (hcard : names.card < maxChainDepth)
    (h : ∀ d, Relation.TransGen (HasSuper r memo) c d → d.name ≠ c.name → d.name ∈ names) :
    c.WithinLimits r memo where
  paths := by
    intro path hpath
    have hsubset : (path.map (·.name)).toFinset ⊆ insert c.name names := by
      intro name hname
      obtain ⟨e, he, rfl⟩ := List.mem_map.mp (List.mem_toFinset.mp hname)
      have hreaches : Relation.ReflTransGen (HasSuper r memo) c e := by
        cases path with
        | nil => cases he
        | cons d path => exact hpath.reaches e he
      rcases Relation.reflTransGen_iff_eq_or_transGen.mp hreaches with rfl | hreaches
      · exact Finset.mem_insert_self _ _
      · by_cases hname : e.name = c.name
        · exact hname ▸ Finset.mem_insert_self _ _
        · exact Finset.mem_insert_of_mem (h e hreaches hname)
    have hle := (Finset.card_le_card hsubset).trans (Finset.card_insert_le _ _)
    rw [List.toFinset_card_of_nodup hpath.nodup, List.length_map] at hle
    omega
  reached := ⟨names, hcard.trans (by decide), h⟩

/-- That is so wherever classes are declared with few superclass names in all. -/
theorem WithinLimits.of_supers {names : Finset String} (hcard : names.card < maxChainDepth)
    (hdeclared : ∀ name details, r.details? name = some details →
      ∀ super ∈ details.supers, super ∈ names)
    (hc : ∀ super ∈ (c.readDetails r memo).1.supers, super ∈ names) : c.WithinLimits r memo := by
  have hstep {d e : ClassTy} (hd : ∀ super ∈ (d.readDetails r memo).1.supers, super ∈ names)
      (hsuper : d.HasSuper r memo e) :
      e.name ∈ names ∧ ∀ super ∈ (e.readDetails r memo).1.supers, super ∈ names := by
    obtain ⟨hname, details, he, hdetails⟩ := Resolver.superClasses_cases hsuper
    refine ⟨hd _ hname, ?_⟩
    rw [he]
    rcases hdetails with rfl | hdetails
    · exact nofun
    · exact hdeclared _ details hdetails
  have hall {d : ClassTy} (hd : Relation.TransGen (HasSuper r memo) c d) :
      d.name ∈ names ∧ ∀ super ∈ (d.readDetails r memo).1.supers, super ∈ names := by
    induction hd with
    | single hsuper => exact hstep hc hsuper
    | tail _ hsuper ih => exact hstep ih.2 hsuper
  exact .of_card hcard fun d hd _ => (hall hd).1

end ClassTy

/-! Walks. -/

section

variable {r : Resolver} {seen : List String} {pending : List ClassTy}

theorem ancestorsFrom_of_met {c : ClassTy} (h : c.name ∈ seen) :
    ancestorsFrom r seen (c :: pending) = ancestorsFrom r seen pending := by
  rw [ancestorsFrom, if_pos h]
  split
  · -- At the limit the walk has come to its end either way.
    rename_i hlimit
    cases pending with
    | nil => rw [ancestorsFrom]
    | cons d pending => rw [ancestorsFrom, if_pos hlimit]
  · rfl

theorem ancestorsFrom_of_new {c : ClassTy} (h : c.name ∉ seen)
    (hroom : seen.length < maxSuperclassWalk) :
    ancestorsFrom r seen (c :: pending)
      = c :: ancestorsFrom r (c.name :: seen) (r.superClasses c.declaredDetails ++ pending) := by
  rw [ancestorsFrom, if_neg (by omega), if_neg h]

/-- A walk meets each class name once, and none that was met before. -/
theorem nodup_ancestorsFrom :
    ((ancestorsFrom r seen pending).map (·.name)).Nodup ∧
      ∀ c ∈ ancestorsFrom r seen pending, c.name ∉ seen := by
  fun_induction ancestorsFrom r seen pending with
  | case1 => exact ⟨List.nodup_nil, nofun⟩
  | case2 => exact ⟨List.nodup_nil, nofun⟩
  | case3 seen c pending hlimit hmet ih => exact ih
  | case4 seen c pending hlimit hnew ih =>
    obtain ⟨hnodup, hfresh⟩ := ih
    refine ⟨List.nodup_cons.mpr ⟨fun hmem => ?_, hnodup⟩, List.forall_mem_cons.mpr ⟨hnew, ?_⟩⟩
    · obtain ⟨d, hd, hname⟩ := List.mem_map.mp hmem
      exact hfresh d hd (hname ▸ List.mem_cons_self)
    · exact fun d hd hmem => hfresh d hd (List.mem_cons_of_mem _ hmem)

/-- What a walk meets was pending, or is a superclass of something. -/
theorem mem_ancestorsFrom {c : ClassTy} (h : c ∈ ancestorsFrom r seen pending) :
    c ∈ pending ∨ ∃ details, c ∈ r.superClasses details := by
  fun_induction ancestorsFrom r seen pending with
  | case1 => cases h
  | case2 => cases h
  | case3 seen d pending hlimit hmet ih =>
    exact (ih h).imp_left (List.mem_cons_of_mem d)
  | case4 seen d pending hlimit hnew ih =>
    rcases List.mem_cons.mp h with rfl | h
    · exact .inl List.mem_cons_self
    · rcases ih h with h | h
      · rcases List.mem_append.mp h with h | h
        · exact .inr ⟨_, h⟩
        · exact .inl (List.mem_cons_of_mem d h)
      · exact .inr h

end

/-! Visitors. -/

/-- A visitor that notes what it is offered and never stops. -/
def noteAll (c : ClassTy) : StateM (List ClassTy) Flow := do
  modify (· ++ [c])
  return .next

theorem offerUntil_noteAll (classes visited : List ClassTy) :
    (offerUntil (pure false) noteAll classes).run visited = (.next, visited ++ classes) := by
  induction classes generalizing visited with
  | nil => rw [List.append_nil]; rfl
  | cons c rest ih =>
    have hrest := ih (visited ++ [c])
    rw [List.append_assoc] at hrest
    exact hrest

theorem ClassTy.ancestors_fst (r : Resolver) (c : ClassTy) (memo : ClassMemo) :
    (c.ancestors r memo).1
      = ancestorsFrom r [c.name] (r.superClasses (c.readDetails r memo).1) := rfl

/-- Such a visitor is offered every superclass. -/
theorem ClassTy.visitAncestors_noteAll (r : Resolver) (c : ClassTy) (memo : ClassMemo) :
    ((c.visitAncestors r (pure false) noteAll memo).run []).2 = (c.ancestors r memo).1 := by
  have hoffer := offerUntil_noteAll (c.ancestors r memo).1 []
  change ((offerUntil (pure false) noteAll (c.ancestors r memo).1).run []).2 = _
  rw [hoffer]
  rfl

end LuaTypes
