import Mathlib.Data.ENat.Lattice
import Mathlib.Data.Set.Card
import LuaTypes.Proofs.Inheritance
import LuaTypes.Proofs.Overrides

/-!
Superclass walks as searches. A walk goes from class name to class name as the declarations lead: at
each step it takes the first superclass that it has not seen of the class it has seen last that has
one. It sees every class name that can be reached in this way, or as many as it may.
-/

namespace LuaTypes

/-! Steps from a class to its superclasses. -/

theorem find?_eraseDups (names : List String) (p : String → Bool) :
    names.eraseDups.find? p = names.find? p := by
  induction hn : names.length using Nat.strong_induction_on generalizing names with
  | _ n ih =>
    cases names with
    | nil => rfl
    | cons name rest =>
      have hlength := List.length_filter_le (fun other => !other == name) rest
      rw [List.length_cons] at hn
      rw [List.eraseDups_cons, List.find?_cons, List.find?_cons, ih _ (by omega) _ rfl]
      cases hp : p name with
      | true => rfl
      | false =>
        have hpass : (fun other => decide ((!other == name) = true ∧ p other = true)) = p := by
          funext other
          by_cases hother : other = name <;> simp [hother, hp]
        simp only [List.find?_filter, hpass]

theorem Ty.mem_classes_iff {types : List Ty} {c : ClassTy} :
    c ∈ types.filterMap Ty.asClass? ↔ Ty.cls c ∈ types := by
  rw [List.mem_filterMap]
  constructor
  · rintro ⟨ty, hty, hclass⟩
    cases ty with
    | cls d => exact Option.some_inj.mp hclass ▸ hty
    | _ => cases hclass
  · exact fun h => ⟨.cls c, h, rfl⟩

namespace Resolver

variable {r : Resolver}

/-- A superclass name leads to the universal table, or to a class that the resolver knows, unless it
is the name of a primitive type. -/
def leads (r : Resolver) (name : String) : Bool :=
  (Prim.ofName? name).isNone && (name == tableWord || (r.details? name).isSome)

/-- The superclass names that lead to a class, in the order of declaration. -/
def steps (r : Resolver) (details : ClassDetails) : List String := details.supers.filter r.leads

/-- What the resolver knows of a superclass. Nothing is above the universal table. -/
def superDetails (r : Resolver) (name : String) : ClassDetails :=
  if name = tableWord then {} else (r.details? name).getD {}

/-- The class that a superclass name leads to. -/
def superClass (r : Resolver) (name : String) : ClassTy := .declared name (r.superDetails name)

theorem superClass_name (name : String) : (r.superClass name).name = name := rfl

theorem superTy?_of_prim {name : String} {p : Prim} (h : Prim.ofName? name = some p) :
    r.superTy? name = some (.prim p) ∧ r.leads name = false := by
  simp [superTy?, builtin?, leads, h]

theorem superTy?_of_leads {name : String} (h : r.leads name = true) :
    r.superTy? name = some (.cls (r.superClass name)) := by
  obtain ⟨hprim, hknown⟩ : Prim.ofName? name = none ∧
      (name = tableWord ∨ (r.details? name).isSome = true) := by
    simpa [leads] using h
  rw [superTy?, builtin?, superClass, superDetails, hprim]
  by_cases hname : name = tableWord
  · simp [hname, Ty.table, ClassTy.universalTable]
  · obtain ⟨details, hdetails⟩ := Option.isSome_iff_exists.mp (hknown.resolve_left hname)
    simp [hname, hdetails]

theorem superTy?_of_not_leads {name : String} (hprim : Prim.ofName? name = none)
    (h : r.leads name = false) : r.superTy? name = none := by
  obtain ⟨hname, hdetails⟩ : name ≠ tableWord ∧ r.details? name = none := by
    simpa [leads, hprim] using h
  simp [superTy?, builtin?, hprim, hname, hdetails]

/-- What is collected from superclass names is plain, and its classes are those that the names lead
to, each once. -/
structure Collected (r : Resolver) (names : List String) (members : List Ty) : Prop where
  plain : ∀ m ∈ members, m.each = [m]
  classes : members.filterMap Ty.asClass? = (names.filter r.leads).eraseDups.map r.superClass

namespace Collected

variable {names : List String} {members : List Ty} {name : String}

theorem any_iff (h : Collected r names members) :
    members.any (· == Ty.cls (r.superClass name)) = true ↔ name ∈ names.filter r.leads := by
  have hmem (c : ClassTy) :
      Ty.cls c ∈ members ↔ ∃ other ∈ names.filter r.leads, r.superClass other = c := by
    rw [← Ty.mem_classes_iff, h.classes, List.mem_map]
    simp only [List.mem_eraseDups]
  rw [List.any_eq_true]
  constructor
  · rintro ⟨m, hm, hsame⟩
    cases m with
    | cls c =>
      obtain ⟨other, hother, rfl⟩ := (hmem c).mp hm
      obtain rfl : other = name := ((Ty.same_cls_iff _ _).mp hsame).1
      exact hother
    | _ => cases hsame
  · exact fun hname => ⟨_, (hmem _).mpr ⟨name, hname, rfl⟩, Ty.same_refl _⟩

theorem prim (h : Collected r names members) (hleads : r.leads name = false) (p : Prim) :
    Collected r (names ++ [name]) (UnionBuilder.insert members (.prim p)) where
  plain := UnionBuilder.forall_insert h.plain rfl
  classes := by
    have hnone : [Ty.prim p].filterMap Ty.asClass? = [] := rfl
    rw [UnionBuilder.insert, List.filter_append, List.filter_singleton, hleads, cond_false,
      List.append_nil]
    split
    · exact h.classes
    · rw [List.filterMap_append, hnone, List.append_nil, h.classes]

theorem skip (h : Collected r names members) (hleads : r.leads name = false) :
    Collected r (names ++ [name]) members where
  plain := h.plain
  classes := by
    rw [List.filter_append, List.filter_singleton, hleads, cond_false, List.append_nil, h.classes]

theorem cls (h : Collected r names members) (hleads : r.leads name = true) :
    Collected r (names ++ [name]) (UnionBuilder.insert members (.cls (r.superClass name))) where
  plain := UnionBuilder.forall_insert h.plain rfl
  classes := by
    have hone : [Ty.cls (r.superClass name)].filterMap Ty.asClass? = [r.superClass name] := rfl
    simp only [UnionBuilder.insert, List.filter_append, List.filter_singleton, hleads, cond_true,
      eraseDups_concat, h.any_iff]
    split
    · exact h.classes
    · rw [List.filterMap_append, hone, h.classes, List.map_append, List.map_singleton]

end Collected

theorem collected (r : Resolver) (names : List String) :
    Collected r names ((names.filterMap r.superTy?).foldl UnionBuilder.add {}).members := by
  induction names using List.reverseRecOn with
  | nil => exact ⟨List.forall_mem_nil _, rfl⟩
  | append_singleton names name ih =>
    rw [List.filterMap_append, List.foldl_append]
    generalize (names.filterMap r.superTy?).foldl UnionBuilder.add {} = b at ih
    cases hprim : Prim.ofName? name with
    | some p =>
      obtain ⟨hsuper, hleads⟩ := r.superTy?_of_prim hprim
      simpa [hsuper, UnionBuilder.add] using ih.prim hleads p
    | none =>
      cases hleads : r.leads name with
      | false => simpa [r.superTy?_of_not_leads hprim hleads] using ih.skip hleads
      | true => simpa [r.superTy?_of_leads hleads, UnionBuilder.add] using ih.cls hleads

theorem superClasses_eq (details : ClassDetails) :
    r.superClasses details = (r.steps details).eraseDups.map r.superClass := by
  obtain ⟨hplain, hclasses⟩ := r.collected details.supers
  rw [superClasses, superOf?, steps, ← hclasses]
  generalize (details.supers.filterMap r.superTy?).foldl UnionBuilder.add {} = b at hplain
  obtain ⟨members, sawUnknown, sawInvalid⟩ := b
  rcases members with _ | ⟨m, _ | ⟨other, rest⟩⟩
  · rfl
  · change m.each.filterMap Ty.asClass? = _
    rw [hplain m (List.mem_singleton_self m)]
  · rfl

end Resolver

/-! Depth-first search. -/

section

variable (steps : String → List String)

/-- Where a search goes on that has seen these names, the last one first: the first step not taken
yet from the name seen last of those that have one. -/
def nextOf (seen : List String) : Option String :=
  seen.findSome? fun name => (steps name).find? (· ∉ seen)

/-- The names that a search finds next, so many at most. -/
def depthFirst : Nat → List String → List String
  | 0, _ => []
  | n + 1, seen =>
    match nextOf steps seen with
    | some name => name :: depthFirst n (name :: seen)
    | none => []

end

section

variable {steps : String → List String} {seen : List String} {n : Nat}

theorem nextOf_spec {name : String} (h : nextOf steps seen = some name) :
    name ∉ seen ∧ ∃ last ∈ seen, name ∈ steps last := by
  obtain ⟨last, hlast, hfind⟩ := List.exists_of_findSome?_eq_some h
  have hnew := List.find?_some hfind
  exact ⟨of_decide_eq_true hnew, last, hlast, List.mem_of_find?_eq_some hfind⟩

theorem mem_seen_of_nextOf (h : nextOf steps seen = none) :
    ∀ last ∈ seen, ∀ name ∈ steps last, name ∈ seen := by
  intro last hlast name hname
  have hnone := List.findSome?_eq_none_iff.mp h last hlast
  simpa using List.find?_eq_none.mp hnone name hname

theorem length_depthFirst_le : (depthFirst steps n seen).length ≤ n := by
  induction n generalizing seen with
  | zero => exact le_rfl
  | succ n ih =>
    rw [depthFirst]
    split
    · exact Nat.succ_le_succ ih
    · exact Nat.zero_le _

/-- A search finds no name twice, and none that it has seen. -/
theorem nodup_depthFirst :
    (depthFirst steps n seen).Nodup ∧ ∀ name ∈ depthFirst steps n seen, name ∉ seen := by
  induction n generalizing seen with
  | zero => exact ⟨List.nodup_nil, List.forall_mem_nil _⟩
  | succ n ih =>
    rw [depthFirst]
    split
    · rename_i name hnext
      have hrest : (depthFirst steps n (name :: seen)).Nodup ∧
          ∀ other ∈ depthFirst steps n (name :: seen), other ∉ name :: seen := ih
      obtain ⟨hnodup, hnew⟩ := hrest
      refine ⟨List.nodup_cons.mpr ⟨fun h => hnew name h List.mem_cons_self, hnodup⟩, ?_⟩
      refine List.forall_mem_cons.mpr ⟨(nextOf_spec hnext).1, fun other h hmem => ?_⟩
      exact hnew other h (List.mem_cons_of_mem _ hmem)
    · exact ⟨List.nodup_nil, List.forall_mem_nil _⟩

/-- What holds of the names that were seen and is kept by steps holds of all that a search finds. -/
theorem forall_depthFirst {P : String → Prop} (hseen : ∀ name ∈ seen, ∀ next ∈ steps name, P next)
    (hstep : ∀ name, P name → ∀ next ∈ steps name, P next) :
    ∀ name ∈ depthFirst steps n seen, P name := by
  induction n generalizing seen with
  | zero => exact List.forall_mem_nil _
  | succ n ih =>
    rw [depthFirst]
    split
    · rename_i name hnext
      obtain ⟨-, last, hlast, hname⟩ := nextOf_spec hnext
      have hP : P name := hseen last hlast name hname
      exact List.forall_mem_cons.mpr ⟨hP, ih (List.forall_mem_cons.mpr ⟨hstep name hP, hseen⟩)⟩
    · exact List.forall_mem_nil _

/-- A search that finds less than it may leaves no step untaken. -/
theorem depthFirst_complete (h : (depthFirst steps n seen).length < n) :
    ∀ name ∈ depthFirst steps n seen ++ seen, ∀ next ∈ steps name,
      next ∈ depthFirst steps n seen ++ seen := by
  induction n generalizing seen with
  | zero => exact absurd h (Nat.not_lt_zero _)
  | succ n ih =>
    rw [depthFirst] at h ⊢
    cases hnext : nextOf steps seen with
    | none => exact mem_seen_of_nextOf hnext
    | some found =>
      simp only [hnext, List.length_cons, Nat.add_lt_add_iff_right] at h ⊢
      have hperm : (found :: depthFirst steps n (found :: seen) ++ seen).Perm
          (depthFirst steps n (found :: seen) ++ found :: seen) := List.perm_middle.symm
      intro name hname next hstep
      exact hperm.mem_iff.mpr (ih h name (hperm.mem_iff.mp hname) next hstep)

/-- Steps may be listed once or more often. -/
theorem depthFirst_eraseDups :
    depthFirst (fun name => (steps name).eraseDups) n seen = depthFirst steps n seen := by
  induction n generalizing seen with
  | zero => rfl
  | succ n ih =>
    have hnext : nextOf (fun name => (steps name).eraseDups) seen = nextOf steps seen := by
      simp only [nextOf, find?_eraseDups]
    rw [depthFirst, depthFirst, hnext]
    simp only [ih]

end

/-- The steps that are left to take from names, if the ones before them lead to seen names. -/
inductive Frontier (steps : String → List String) (seen : List String) :
    List String → List String → Prop
  | nil : Frontier steps seen [] []
  | cons {name : String} {taken left rest pending : List String} : steps name = taken ++ left →
    (∀ next ∈ taken, next ∈ seen) → Frontier steps seen rest pending →
    Frontier steps seen (name :: rest) (left ++ pending)

namespace Frontier

variable {steps : String → List String} {seen names pending : List String} {name : String}

theorem find?_eq (h : Frontier steps seen names pending) :
    names.findSome? (fun name => (steps name).find? (· ∉ seen)) = pending.find? (· ∉ seen) := by
  induction h with
  | nil => rfl
  | @cons name taken left rest pending hsteps htaken _ ih =>
    have hnone : taken.find? (· ∉ seen) = none := by
      simpa [List.find?_eq_none] using htaken
    rw [List.findSome?_cons, List.find?_append, hsteps, List.find?_append, hnone, Option.none_or,
      ih]
    cases left.find? (· ∉ seen) <;> rfl

theorem nextOf_eq (h : Frontier steps seen seen pending) :
    nextOf steps seen = pending.find? (· ∉ seen) := h.find?_eq

/-- A step that leads to a seen name is taken. -/
theorem met (h : Frontier steps seen names (name :: pending)) (hmet : name ∈ seen) :
    Frontier steps seen names pending := by
  generalize hall : name :: pending = all at h
  induction h generalizing pending with
  | nil => cases hall
  | @cons last taken left rest others hsteps htaken hrest ih =>
    cases left with
    | nil => exact .cons hsteps htaken (ih hall)
    | cons next left =>
      obtain ⟨rfl, rfl⟩ := List.cons.inj hall
      have hsplit : steps last = (taken ++ [name]) ++ left := by
        rw [hsteps, List.append_assoc, List.singleton_append]
      refine .cons hsplit ?_ hrest
      exact List.forall_mem_append.mpr ⟨htaken, List.forall_mem_singleton.mpr hmet⟩

theorem grow (h : Frontier steps seen names pending) (name : String) :
    Frontier steps (name :: seen) names pending := by
  induction h with
  | nil => exact .nil
  | cons hsteps htaken _ ih =>
    exact .cons hsteps (fun next hnext => List.mem_cons_of_mem name (htaken next hnext)) ih

/-- All the steps from a new name are left to take. -/
theorem visit (h : Frontier steps seen seen (name :: pending)) :
    Frontier steps (name :: seen) (name :: seen) (steps name ++ pending) :=
  .cons rfl (List.forall_mem_nil _) ((h.grow name).met List.mem_cons_self)

end Frontier

namespace ClassTy

section

variable (r : Resolver) (memo : ClassMemo) (c : ClassTy)

/-- The steps from a class name, where the class keeps its own details, and of every other name
there is what the resolver knows. -/
def stepsIn (name : String) : List String :=
  r.steps (if name = c.name then c.detailsIn r memo else r.superDetails name)

/-- The other class names that steps lead to from the class. -/
def reached : Set String :=
  { name | Relation.TransGen (fun last next => next ∈ c.stepsIn r memo last) c.name name ∧
    name ≠ c.name }

end

variable {r : Resolver} {memo : ClassMemo} {c : ClassTy}

/-- A walk goes on like a search if what is pending are the steps that the search has left. -/
theorem ancestorsFrom_eq_depthFirst {seen pending : List String} (hself : c.name ∈ seen)
    (h : Frontier (fun name => (c.stepsIn r memo name).eraseDups) seen seen pending) :
    ancestorsFrom r seen (pending.map r.superClass) =
      (depthFirst (c.stepsIn r memo) (maxSuperclassWalk - seen.length) seen).map r.superClass := by
  -- The walk asks for the superclasses of a class once each, so the search does as well. The
  -- induction is on the walk: what it has pending shrinks where it comes to a seen class, and grows
  -- by the steps from a new one.
  rw [← depthFirst_eraseDups]
  generalize hclasses : pending.map r.superClass = classes
  fun_induction ancestorsFrom r seen classes generalizing pending with
  | case1 seen =>
    obtain rfl := List.map_eq_nil_iff.mp hclasses
    cases maxSuperclassWalk - seen.length with
    | zero => rfl
    | succ n => rw [depthFirst, h.nextOf_eq, List.find?_nil, List.map_nil]
  | case2 seen d classes hlimit =>
    rw [Nat.sub_eq_zero_of_le hlimit, depthFirst, List.map_nil]
  | case3 seen d classes hlimit hmet ih =>
    obtain ⟨name, others, rfl, rfl, rfl⟩ := List.map_eq_cons_iff.mp hclasses
    exact ih hself (h.met hmet) rfl
  | case4 seen d classes hlimit hnew ih =>
    obtain ⟨name, others, rfl, rfl, rfl⟩ := List.map_eq_cons_iff.mp hclasses
    have hname : name ≠ c.name := fun heq => hnew (heq ▸ hself)
    have hnext : nextOf (fun name => (c.stepsIn r memo name).eraseDups) seen = some name := by
      have hnew : name ∉ seen := hnew
      rw [h.nextOf_eq, List.find?_cons, decide_eq_true hnew]
    have hpending : ((c.stepsIn r memo name).eraseDups ++ others).map r.superClass
        = r.superClasses (r.superClass name).declaredDetails ++ others.map r.superClass := by
      rw [List.map_append, Resolver.superClasses_eq, stepsIn, if_neg hname]
      rfl
    obtain ⟨n, hn⟩ : ∃ n, maxSuperclassWalk - seen.length = n + 1 :=
      ⟨maxSuperclassWalk - (seen.length + 1), by omega⟩
    rw [hn, depthFirst, hnext, List.map_cons, ih (List.mem_cons_of_mem _ hself) h.visit hpending,
      List.length_cons, show maxSuperclassWalk - (seen.length + 1) = n by omega]
    rfl

/-- A walk is a search from the class. -/
theorem ancestors_eq_depthFirst (r : Resolver) (memo : ClassMemo) (c : ClassTy) :
    (c.ancestors r memo).1
      = (depthFirst (c.stepsIn r memo) (maxSuperclassWalk - 1) [c.name]).map r.superClass := by
  have hfrontier : Frontier (fun name => (c.stepsIn r memo name).eraseDups) [c.name] [c.name]
      ((c.stepsIn r memo c.name).eraseDups ++ []) :=
    .cons rfl (List.forall_mem_nil _) .nil
  rw [ancestors_fst, Resolver.superClasses_eq, readDetails_fst]
  rw [List.append_nil, stepsIn, if_pos rfl] at hfrontier
  exact ancestorsFrom_eq_depthFirst (List.mem_singleton_self _) hfrontier

/-- A search that finds less than it may finds all names that steps lead to. -/
theorem mem_depthFirst_of_reached {n : Nat}
    (h : (depthFirst (c.stepsIn r memo) n [c.name]).length < n) :
    ∀ name ∈ c.reached r memo, name ∈ depthFirst (c.stepsIn r memo) n [c.name] := by
  rintro name ⟨htrans, hne⟩
  have hfound : name ∈ depthFirst (c.stepsIn r memo) n [c.name] ++ [c.name] := by
    clear hne
    induction htrans with
    | single hnext =>
      have hself := List.mem_append_right (depthFirst (c.stepsIn r memo) n [c.name])
        (List.mem_singleton_self c.name)
      exact depthFirst_complete h _ hself _ hnext
    | tail _ hnext ih => exact depthFirst_complete h _ ih _ hnext
  exact (List.mem_append.mp hfound).resolve_right fun hself => hne (List.mem_singleton.mp hself)

theorem reached_of_mem_depthFirst {n : Nat} :
    ∀ name ∈ depthFirst (c.stepsIn r memo) n [c.name], name ∈ c.reached r memo := by
  have htrans : ∀ name ∈ depthFirst (c.stepsIn r memo) n [c.name],
      Relation.TransGen (fun last next => next ∈ c.stepsIn r memo last) c.name name :=
    forall_depthFirst (List.forall_mem_singleton.mpr fun _ hnext => .single hnext)
      fun _ hname _ hnext => hname.tail hnext
  refine fun name hname => ⟨htrans name hname, fun hself => ?_⟩
  exact nodup_depthFirst.2 name hname (hself ▸ List.mem_singleton_self _)

theorem encard_depthFirst (n : Nat) :
    ({ name | name ∈ depthFirst (c.stepsIn r memo) n [c.name] } : Set String).encard
      = (depthFirst (c.stepsIn r memo) n [c.name]).length := by
  rw [← List.coe_toFinset, Set.encard_coe_eq_coe_finsetCard,
    List.toFinset_card_of_nodup nodup_depthFirst.1]

/-- A search finds all of the reached names, or as many of them as it may. -/
theorem length_depthFirst (n : Nat) :
    ((depthFirst (c.stepsIn r memo) n [c.name]).length : ℕ∞) = min (c.reached r memo).encard n := by
  have hle : (depthFirst (c.stepsIn r memo) n [c.name]).length ≤ n := length_depthFirst_le
  rw [← encard_depthFirst]
  rcases hle.lt_or_eq with hlt | heq
  · have hall : { name | name ∈ depthFirst (c.stepsIn r memo) n [c.name] } = c.reached r memo :=
      Set.Subset.antisymm reached_of_mem_depthFirst (mem_depthFirst_of_reached hlt)
    rw [min_eq_left, hall]
    rw [← hall, encard_depthFirst]
    exact Nat.cast_le.mpr hle
  · have hsub : { name | name ∈ depthFirst (c.stepsIn r memo) n [c.name] } ⊆ c.reached r memo :=
      reached_of_mem_depthFirst
    have hmany := Set.encard_le_encard hsub
    rw [encard_depthFirst, heq] at hmany
    rw [min_eq_right hmany, encard_depthFirst, heq]

/-- A search that may find as many names as are reached finds them all. -/
theorem mem_depthFirst_iff {n : Nat} (h : (c.reached r memo).encard ≤ n) (name : String) :
    name ∈ depthFirst (c.stepsIn r memo) n [c.name] ↔ name ∈ c.reached r memo := by
  have hall : { name | name ∈ depthFirst (c.stepsIn r memo) n [c.name] } = c.reached r memo := by
    refine (List.finite_toSet _).eq_of_subset_of_encard_le reached_of_mem_depthFirst ?_
    rw [encard_depthFirst, length_depthFirst, min_eq_left h]
  exact Set.ext_iff.mp hall name

end ClassTy

end LuaTypes
