import LuaTypes.Proofs.Ancestry
import LuaTypes.Proofs.SubtypeUnions

/-!
Superclasses by name. What a class extends is fixed by its name, so a walk that has room for all
superclasses finds just the names that the declarations lead to.
-/

namespace LuaTypes

namespace Resolver

variable {r : Resolver}

/-- The direct superclasses of the class that the resolver knows by this name. -/
def supersOf (r : Resolver) (name : String) : List ClassTy :=
  r.superClasses ((r.details? name).getD {})

/-- The second name is that of a direct superclass of the class with the first name. -/
def Extends (r : Resolver) (name super : String) : Prop :=
  ∃ d ∈ r.supersOf name, d.name = super

/-- Nothing is above the universal table, and no class has as many superclasses as a walk may see
classes. -/
structure Hierarchical (r : Resolver) : Prop where
  table : ∀ details, r.details? tableWord = some details → details.supers = []
  bounded : ∀ name, ∃ names : Finset String, names.card < maxSuperclassWalk ∧
    ∀ super, Relation.TransGen r.Extends name super → super ≠ name → super ∈ names

theorem superClasses_of_supers {d : ClassDetails} (h : d.supers = []) : r.superClasses d = [] := by
  rw [superClasses, superOf?, h]
  rfl

theorem Hierarchical.supersOf_tableWord (h : r.Hierarchical) : r.supersOf tableWord = [] := by
  apply superClasses_of_supers
  cases hdetails : r.details? tableWord with
  | none => rfl
  | some details => exact h.table details hdetails

/-- That is so wherever classes are declared with few superclass names in all. -/
theorem Hierarchical.of_supers (names : Finset String) (hcard : names.card < maxSuperclassWalk)
    (htable : ∀ details, r.details? tableWord = some details → details.supers = [])
    (hdeclared : ∀ name details, r.details? name = some details →
      ∀ super ∈ details.supers, super ∈ names) : r.Hierarchical where
  table := htable
  bounded name := by
    refine ⟨names, hcard, fun super hreached _ => ?_⟩
    obtain ⟨mid, -, d, hd, rfl⟩ := Relation.TransGen.tail'_iff.mp hreached
    obtain ⟨hsuper, -⟩ := superClasses_cases hd
    cases hdetails : r.details? mid with
    | none =>
      rw [hdetails] at hsuper
      cases hsuper
    | some details =>
      rw [hdetails] at hsuper
      exact hdeclared mid details hdetails d.name hsuper

/-- A superclass name stands for the universal table, or for the class declared by that name. -/
theorem superTy?_cls {name : String} {c : ClassTy} (h : r.superTy? name = some (.cls c)) :
    c = .universalTable ∨
      ∃ details, c = .declared name details ∧ r.details? name = some details := by
  rw [superTy?] at h
  cases hbuiltin : builtin? name with
  | some ty =>
    simp only [hbuiltin] at h
    obtain rfl : ty = .cls c := Option.some_inj.mp h
    rw [builtin?] at hbuiltin
    split at hbuiltin
    · cases hbuiltin
    · split at hbuiltin
      · exact .inl (Ty.cls.inj (Option.some_inj.mp hbuiltin)).symm
      · cases hbuiltin
  | none =>
    simp only [hbuiltin] at h
    obtain ⟨details, hdetails, hcls⟩ := Option.map_eq_some_iff.mp h
    exact .inr ⟨details, (Ty.cls.inj hcls).symm, hdetails⟩

end Resolver

namespace ClassTy

variable {r : Resolver} {c d : ClassTy}

/-- A class without flags whose superclasses are those that the resolver knows by its name. -/
structure Canonical (r : Resolver) (c : ClassTy) : Prop where
  flags : c.flags = {}
  supers : r.superClasses c.declaredDetails = r.supersOf c.name

theorem canonical_of_mem_superClasses (h : r.Hierarchical) {details : ClassDetails}
    (hc : c ∈ r.superClasses details) : c.Canonical r := by
  obtain ⟨name, -, hsuper⟩ := Resolver.superTy?_of_mem_superClasses hc
  rcases Resolver.superTy?_cls hsuper with rfl | ⟨own, rfl, hown⟩
  · exact ⟨rfl, (Resolver.superClasses_of_supers rfl).trans h.supersOf_tableWord.symm⟩
  · refine ⟨rfl, ?_⟩
    change r.superClasses own = r.superClasses ((r.details? name).getD {})
    rw [hown, Option.getD_some]

end ClassTy

/-! Walks with room. -/

section

variable {r : Resolver} {seen : List String} {pending : List ClassTy}

/-- What holds of the pending classes and of the superclasses of each class it holds of, holds of
every class that the walk meets. -/
theorem forall_ancestorsFrom {P : ClassTy → Prop} (hpending : ∀ c ∈ pending, P c)
    (hsuper : ∀ c, P c → ∀ d ∈ r.superClasses c.declaredDetails, P d) :
    ∀ c ∈ ancestorsFrom r seen pending, P c := by
  fun_induction ancestorsFrom r seen pending with
  | case1 | case2 => exact List.forall_mem_nil _
  | case3 seen c pending hlimit hmet ih => exact ih (List.forall_mem_cons.mp hpending).2
  | case4 seen c pending hlimit hnew ih =>
    obtain ⟨hc, hrest⟩ := List.forall_mem_cons.mp hpending
    exact List.forall_mem_cons.mpr ⟨hc, ih (List.forall_mem_append.mpr ⟨hsuper c hc, hrest⟩)⟩

/-- The class is among those that were met before or that the walk meets, by its name. -/
def MetBy (seen : List String) (walked : List ClassTy) (c : ClassTy) : Prop :=
  c.name ∈ seen ∨ ∃ e ∈ walked, e.name = c.name

theorem MetBy.later {c d : ClassTy} {walked : List ClassTy} (h : MetBy (c.name :: seen) walked d) :
    MetBy seen (c :: walked) d := by
  rcases h with h | ⟨e, he, hname⟩
  · rcases List.mem_cons.mp h with h | h
    · exact .inr ⟨c, List.mem_cons_self, h.symm⟩
    · exact .inl h
  · exact .inr ⟨e, List.mem_cons_of_mem c he, hname⟩

/-- A walk among no more class names than its limit meets everything that is pending, and all
superclasses of what it meets. -/
theorem ancestorsFrom_complete (names : Finset String) {P : ClassTy → Prop}
    (hpending : ∀ c ∈ pending, P c)
    (hsuper : ∀ c, P c → ∀ d ∈ r.superClasses c.declaredDetails, P d)
    (hnames : ∀ c, P c → c.name ∈ names) (hcard : names.card ≤ maxSuperclassWalk)
    (hnodup : seen.Nodup) (hseen : ∀ name ∈ seen, name ∈ names) :
    (∀ c ∈ pending, MetBy seen (ancestorsFrom r seen pending) c) ∧
    ∀ c ∈ ancestorsFrom r seen pending, ∀ d ∈ r.superClasses c.declaredDetails,
      MetBy seen (ancestorsFrom r seen pending) d := by
  fun_induction ancestorsFrom r seen pending with
  | case1 => exact ⟨List.forall_mem_nil _, List.forall_mem_nil _⟩
  | case2 seen c pending hlimit =>
    -- At the limit all the names have been met.
    have hall : seen.toFinset = names := by
      apply Finset.eq_of_subset_of_card_le
      · exact fun name hname => hseen name (List.mem_toFinset.mp hname)
      · rw [List.toFinset_card_of_nodup hnodup]
        omega
    refine ⟨fun d hd => .inl (List.mem_toFinset.mp ?_), List.forall_mem_nil _⟩
    rw [hall]
    exact hnames d (hpending d hd)
  | case3 seen c pending hlimit hmet ih =>
    obtain ⟨hrest, hclosed⟩ := ih (List.forall_mem_cons.mp hpending).2 hnodup hseen
    exact ⟨List.forall_mem_cons.mpr ⟨.inl hmet, hrest⟩, hclosed⟩
  | case4 seen c pending hlimit hnew ih =>
    obtain ⟨hc, hothers⟩ := List.forall_mem_cons.mp hpending
    obtain ⟨hmet, hclosed⟩ := ih (List.forall_mem_append.mpr ⟨hsuper c hc, hothers⟩)
      (List.nodup_cons.mpr ⟨hnew, hnodup⟩) (List.forall_mem_cons.mpr ⟨hnames c hc, hseen⟩)
    obtain ⟨hsupers, hrest⟩ := List.forall_mem_append.mp hmet
    refine ⟨List.forall_mem_cons.mpr ⟨.inr ⟨c, List.mem_cons_self, rfl⟩, fun d hd => ?_⟩, ?_⟩
    · exact (hrest d hd).later
    · refine List.forall_mem_cons.mpr ⟨fun d hd => (hsupers d hd).later, ?_⟩
      exact fun e he d hd => (hclosed e he d hd).later

end

namespace ClassTy

variable {r : Resolver} {c d : ClassTy} {name : String}

/-- A class that the declarations lead to from a class name. -/
structure Above (r : Resolver) (name : String) (c : ClassTy) : Prop extends c.Canonical r where
  reached : Relation.TransGen r.Extends name c.name

theorem Above.of_mem (h : r.Hierarchical) (hc : c ∈ r.supersOf name) : c.Above r name where
  toCanonical := canonical_of_mem_superClasses h hc
  reached := .single ⟨c, hc, rfl⟩

theorem Above.super (h : r.Hierarchical) (hc : c.Above r name)
    (hd : d ∈ r.superClasses c.declaredDetails) : d.Above r name where
  toCanonical := canonical_of_mem_superClasses h hd
  reached := hc.reached.tail ⟨d, hc.supers ▸ hd, rfl⟩

theorem above_of_mem_ancestorsBy (h : r.Hierarchical) {cell : Nat}
    (hc : c ∈ (deferred name cell).ancestorsBy r) : c.Above r name :=
  forall_ancestorsFrom (fun _ hd => .of_mem h hd) (fun _ hd _ he => hd.super h he) c hc

/-- The walk from a class finds all the names that the declarations lead to. -/
theorem exists_mem_ancestorsBy (h : r.Hierarchical) (cell : Nat) {super : String}
    (hreached : Relation.TransGen r.Extends name super) :
    super = name ∨ ∃ e ∈ (deferred name cell).ancestorsBy r, e.name = super := by
  obtain ⟨names, hcard, hbounded⟩ := h.bounded name
  obtain ⟨hmet, hclosed⟩ :
      (∀ c ∈ r.supersOf name, MetBy [name] ((deferred name cell).ancestorsBy r) c) ∧
      ∀ c ∈ (deferred name cell).ancestorsBy r, ∀ d ∈ r.superClasses c.declaredDetails,
        MetBy [name] ((deferred name cell).ancestorsBy r) d := by
    apply ancestorsFrom_complete (insert name names) (P := Above r name)
    · exact fun c hc => .of_mem h hc
    · exact fun c hc d hd => hc.super h hd
    · intro c hc
      by_cases hname : c.name = name
      · exact hname ▸ Finset.mem_insert_self _ _
      · exact Finset.mem_insert_of_mem (hbounded _ hc.reached hname)
    · exact (Finset.card_insert_le _ _).trans hcard
    · exact List.nodup_singleton name
    · exact List.forall_mem_singleton.mpr (Finset.mem_insert_self _ _)
  induction hreached with
  | single hextends =>
    obtain ⟨d, hd, rfl⟩ := hextends
    exact (hmet d hd).imp_left List.mem_singleton.mp
  | tail _ hextends ih =>
    obtain ⟨d, hd, rfl⟩ := hextends
    rcases ih with rfl | ⟨e, he, rfl⟩
    · exact (hmet d hd).imp_left List.mem_singleton.mp
    · have hde := (above_of_mem_ancestorsBy h he).supers ▸ hd
      exact (hclosed e he d hde).imp_left List.mem_singleton.mp

/-- A class that was met by name inherits from just the classes above it. -/
theorem inherits_deferred_iff (h : r.Hierarchical) (super : String) (cell cell' : Nat) :
    (deferred name cell).Inherits r (deferred super cell') ↔
      r.cancelled = false ∧ super ≠ name ∧ Relation.TransGen r.Extends name super := by
  have hiff (e : ClassTy) : (e == deferred super cell') = true ↔ e.name = super ∧ e.flags = {} :=
    Ty.same_cls_iff e (deferred super cell')
  refine and_congr_right fun _ => ⟨?_, ?_⟩
  · rintro ⟨e, he, hsame⟩
    obtain ⟨rfl, -⟩ := (hiff e).mp hsame
    obtain ⟨-, hfresh⟩ : _ ∧ ∀ d ∈ (deferred name cell).ancestorsBy r, d.name ∉ [name] :=
      nodup_ancestorsFrom
    exact ⟨fun hname => hfresh e he (List.mem_singleton.mpr hname),
      (above_of_mem_ancestorsBy h he).reached⟩
  · rintro ⟨hne, hreached⟩
    obtain ⟨e, he, hname⟩ := (exists_mem_ancestorsBy h cell hreached).resolve_left hne
    exact ⟨e, he, (hiff e).mpr ⟨hname, (above_of_mem_ancestorsBy h he).flags⟩⟩

theorem inherits_iff (h : r.Hierarchical) (hc : (Ty.cls c).MetByName) (hd : (Ty.cls d).MetByName) :
    c.Inherits r d ↔
      r.cancelled = false ∧ d.name ≠ c.name ∧ Relation.TransGen r.Extends c.name d.name := by
  obtain ⟨cell, hcell⟩ := hc.here c rfl
  obtain ⟨cell', hcell'⟩ := hd.here d rfl
  rw [hcell, hcell']
  exact inherits_deferred_iff h d.name cell cell'

end ClassTy

end LuaTypes
