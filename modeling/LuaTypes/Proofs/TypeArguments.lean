import LuaTypes.Proofs.Evidence
import LuaTypes.Proofs.Shown

/-!
Type arguments. What a type parameter is bound to is the union of what each argument says about it
on its own, in whatever order the arguments are read.
-/

namespace LuaTypes

/-! Types that say nothing, or something, but are not invalid. -/

theorem Ty.eq_unknown {ty : Ty} (hinvalid : ty.isInvalid = true) (h : ty ≠ .invalid) :
    ty = .unknown := by
  cases ty with
  | unknown => rfl
  | invalid => exact absurd rfl h
  | _ => cases hinvalid

namespace Ty.WellFormed

theorem join_ne_invalid {a b : Ty} (ha : a.WellFormed) (hb : b.WellFormed) (hna : a ≠ .invalid)
    (hnb : b ≠ .invalid) : a.join b ≠ .invalid := by
  cases hva : a.isInvalid with
  | true =>
    cases hvb : b.isInvalid with
    | true =>
      obtain rfl := eq_unknown hva hna
      rw [join_of_isInvalid hva hvb]
      exact nofun
    | false => rwa [join_of_isInvalid_left hva hvb]
  | false =>
    cases hvb : b.isInvalid with
    | true => rwa [join_of_isInvalid_right hva hvb]
    | false =>
      intro hinvalid
      have hvalid := (each_join ha hb hva hvb).2
      rw [hinvalid] at hvalid
      cases hvalid

/-- What shows tells such types apart. -/
theorem same_of_shows_of_ne {a b : Ty} (ha : a.WellFormed) (hb : b.WellFormed) (hna : a ≠ .invalid)
    (hnb : b ≠ .invalid) (h : ∀ m : Ty, m.WellFormed → (a.Shows m ↔ b.Shows m)) : a.Same b := by
  cases hva : a.isInvalid with
  | false => exact same_of_shows ha hb hva h
  | true =>
    have hvb : b.isInvalid = true := (isInvalid_of_shows ha hb h).symm.trans hva
    rw [eq_unknown hva hna, eq_unknown hvb hnb]
    exact same_refl _

variable {types : List Ty} (h : ∀ ty ∈ types, ty.WellFormed)

include h

theorem unionAll_ne_invalid (hne : ∀ ty ∈ types, ty ≠ .invalid) : Ty.unionAll types ≠ .invalid := by
  intro hinvalid
  have hall := isInvalid_of_unionAll h (by rw [hinvalid]; rfl)
  have hnone : types.any (!·.isUnknown) = false := by
    refine List.any_eq_false.mpr fun ty hty => ?_
    rw [eq_unknown (hall ty hty) (hne ty hty)]
    exact Bool.false_ne_true
  rw [Ty.unionAll_of_isInvalid hall, hnone] at hinvalid
  cases hinvalid

/-! Joins of many types. -/

variable {a : Ty} (ha : a.WellFormed)

include ha

theorem foldl_join : (types.foldl Ty.join a).WellFormed :=
  List.foldlRecOn types Ty.join ha fun _ hb ty hty => hb.join (h ty hty)

theorem foldl_join_ne_invalid (hna : a ≠ .invalid) (hne : ∀ ty ∈ types, ty ≠ .invalid) :
    types.foldl Ty.join a ≠ .invalid :=
  (List.foldlRecOn (motive := fun a => a.WellFormed ∧ a ≠ .invalid) types Ty.join ⟨ha, hna⟩
    fun _ ⟨hb, hnb⟩ ty hty =>
      ⟨hb.join (h ty hty), hb.join_ne_invalid (h ty hty) hnb (hne ty hty)⟩).2

theorem shows_foldl_join {m : Ty} (hm : m.WellFormed) :
    (types.foldl Ty.join a).Shows m ↔ a.Shows m ∨ ∃ ty ∈ types, ty.Shows m := by
  induction types generalizing a with
  | nil => simp
  | cons ty types ih =>
    obtain ⟨hty, htypes⟩ := List.forall_mem_cons.mp h
    rw [List.foldl_cons, ih htypes (ha.join hty), shows_join ha hty hm, or_assoc,
      List.exists_mem_cons_iff]

end Ty.WellFormed

namespace Unifier

/-! What is read. -/

/-- Each type that stands beside a name is a part of the actual type, and no sentinel. -/
theorem evidence_wellFormed (room : Nat) {actual : Ty} (h : actual.WellFormed) (formal : Ty) :
    ∀ e ∈ evidence room actual formal, e.2.WellFormed ∧ e.2.isInvalid = false := by
  induction room generalizing actual formal with
  | zero => exact List.forall_mem_nil _
  | succ room ih =>
    intro e he
    rw [evidence] at he
    split at he
    · cases he
    rename_i hvalid
    cases formal with
    | cls c =>
      obtain rfl := List.mem_singleton.mp he
      exact ⟨h, Bool.not_eq_true _ ▸ hvalid⟩
    | union members =>
      obtain ⟨member, -, he⟩ := List.mem_flatMap.mp he
      exact ih h member e he
    | array formalElement =>
      obtain ⟨member, hmember, he⟩ := List.mem_flatMap.mp he
      have hparts := (h.each member hmember).part
      cases member with
      | array element => exact ih (hparts element (List.mem_singleton_self _)) formalElement e he
      | _ => cases he
    | generic formalBase formalArgs =>
      obtain ⟨member, hmember, he⟩ := List.mem_flatMap.mp he
      have hparts := (h.each member hmember).part
      cases member with
      | generic base args =>
        rcases List.mem_append.mp he with he | he
        · exact ih (hparts base List.mem_cons_self) formalBase e he
        · obtain ⟨⟨arg, i⟩, harg, he⟩ := List.mem_flatMap.mp he
          have hmem : arg ∈ args := List.fst_mem_of_mem_zipIdx harg
          exact ih (hparts arg (List.mem_cons_of_mem _ hmem)) (typeArg formalArgs i) e he
      | _ => cases he
    | func formalMain formalOverloads =>
      obtain ⟨member, hmember, he⟩ := List.mem_flatMap.mp he
      have hparts := (h.each member hmember).part
      cases member with
      | func main overloads =>
        have hret : main.ret.WellFormed := hparts main.ret (by simp [Ty.parts, Signature.types])
        exact ih hret formalMain.ret e he
      | _ => cases he
    | _ => cases he

/-! What is bound at first. -/

theorem get?_ofSignature (sig : Signature) (name : String) :
    (ofSignature sig).bindings.get? name
      = if name ∈ sig.typeParams.map (·.name) then some .unknown else none := by
  have hfold (params : List TypeParam) (b : Bindings) :
      (params.foldl (fun b p => b.insert p.name .unknown) b).get? name
        = if name ∈ params.map (·.name) then some .unknown else b.get? name := by
    induction params generalizing b with
    | nil => rfl
    | cons p params ih =>
      rw [List.foldl_cons, ih, OrderedMap.get?_insert, List.map_cons]
      by_cases hname : name = p.name <;> simp [hname]
  exact hfold sig.typeParams {}

theorem distinct_ofSignature (sig : Signature) : (ofSignature sig).bindings.Distinct :=
  List.foldlRecOn (motive := (OrderedMap.Distinct ·)) sig.typeParams _ List.nodup_nil
    fun _ h p _ => h.insert p.name .unknown

/-! What is bound in the end. -/

/-- A class of the declared bound takes the place of a type that says nothing. -/
def orClass (bound? : Option String) (cell : Nat) (ty : Ty) : Ty :=
  if ty.isInvalid then bound?.elim ty fun bound => .cls (.deferred bound cell) else ty

/-- The bound of the first type parameter of this name that has one. -/
def boundOf? (params : List TypeParam) (name : String) : Option String :=
  params.findSome? fun p => if p.name = name then p.bound? else none

theorem boundOf?_cons (p : TypeParam) (params : List TypeParam) (name : String) :
    boundOf? (p :: params) name
      = ((if p.name = name then p.bound? else none) <|> boundOf? params name) := by
  rw [boundOf?, List.findSome?_cons]
  cases (if p.name = name then p.bound? else none) <;> rfl

theorem exists_of_boundOf? {params : List TypeParam} {name bound : String}
    (h : boundOf? params name = some bound) :
    ∃ p ∈ params, p.name = name ∧ p.bound? = some bound := by
  obtain ⟨p, hp, hbound⟩ := List.exists_of_findSome?_eq_some h
  split at hbound
  · exact ⟨p, hp, ‹_›, hbound⟩
  · cases hbound

theorem isSome_boundOf?_iff {params : List TypeParam} {name : String} :
    (boundOf? params name).isSome = true ↔
      ∃ p ∈ params, p.name = name ∧ p.bound?.isSome = true := by
  rw [boundOf?, List.findSome?_isSome_iff]
  refine exists_congr fun p => and_congr_right fun _ => ?_
  split <;> simp [*]

theorem bound?_of_boundOf? {params : List TypeParam} {name : String}
    (h : boundOf? params name = none) {p : TypeParam} (hp : p ∈ params) (hname : p.name = name) :
    p.bound? = none := by
  have hnone := List.findSome?_eq_none_iff.mp h p hp
  rwa [if_pos hname] at hnone

theorem orClass_of_valid (bound? : Option String) (cell : Nat) {ty : Ty}
    (h : ty.isInvalid = false) : orClass bound? cell ty = ty := by
  rw [orClass, h]
  rfl

theorem orClass_none (cell : Nat) : orClass none cell = id := by
  funext ty
  rw [orClass, Option.elim_none, ite_self, id]

theorem isInvalid_orClass_some (bound : String) (cell : Nat) (ty : Ty) :
    (orClass (some bound) cell ty).isInvalid = false := by
  rw [orClass]
  split
  · rfl
  · exact Bool.not_eq_true _ ▸ ‹_›

theorem orBound_apply (b : Bindings) (p : TypeParam) (memo : ClassMemo) :
    (orBound b p memo).1 =
      match p.bound?, b.get? p.name with
      | some bound, some ty =>
        if ty.isInvalid then b.insert p.name (.cls (.deferred bound memo.next)) else b
      | _, _ => b := by
  rw [orBound]
  cases p.bound? with
  | none => rfl
  | some bound =>
    cases b.get? p.name with
    | none => rfl
    | some ty =>
      dsimp only
      cases ty.isInvalid <;> rfl

theorem distinct_orBound {b : Bindings} (h : b.Distinct) (p : TypeParam) (memo : ClassMemo) :
    (orBound b p memo).1.Distinct := by
  rw [orBound_apply]
  split
  · split
    · exact h.insert p.name _
    · exact h
  · exact h

theorem get?_orBound (b : Bindings) (p : TypeParam) (memo : ClassMemo) (name : String) :
    (orBound b p memo).1.get? name
      = if name = p.name then (b.get? name).map (orClass p.bound? memo.next) else b.get? name := by
  by_cases hname : name = p.name
  · subst hname
    rw [if_pos rfl, orBound_apply]
    cases p.bound? with
    | none => rw [orClass_none, Option.map_id, id]
    | some bound =>
      cases hget : b.get? p.name with
      | none => exact hget
      | some ty =>
        rw [Option.map_some, orClass]
        dsimp only
        split
        · rw [OrderedMap.get?_insert, if_pos rfl]
          rfl
        · exact hget
  · rw [if_neg hname, orBound_apply]
    split
    · split
      · rw [OrderedMap.get?_insert, if_neg hname]
      · rfl
    · rfl

/-- A type that was replaced by a class is not replaced again, so that the first bound counts. -/
theorem foldlM_orBound (params : List TypeParam) {b : Bindings} (h : b.Distinct)
    (memo : ClassMemo) (name : String) :
    (params.foldlM orBound b memo).1.Distinct ∧
    ∃ cell, (params.foldlM orBound b memo).1.get? name
      = (b.get? name).map (orClass (boundOf? params name) cell) := by
  induction params generalizing b memo with
  | nil =>
    refine ⟨h, 0, ?_⟩
    change b.get? name = (b.get? name).map (orClass none 0)
    rw [orClass_none, Option.map_id, id]
  | cons p params ih =>
    obtain ⟨hdistinct, cell, hget⟩ := ih (distinct_orBound h p memo) (orBound b p memo).2
    refine ⟨hdistinct, ?_⟩
    change ∃ _, (params.foldlM orBound (orBound b p memo).1 (orBound b p memo).2).1.get? name = _
    rw [hget, get?_orBound, boundOf?_cons]
    by_cases hname : name = p.name
    · rw [if_pos hname, if_pos hname.symm, Option.map_map]
      cases p.bound? with
      | none => exact ⟨cell, by rw [orClass_none]; rfl⟩
      | some bound =>
        refine ⟨memo.next, congrArg (Option.map · _) (funext fun ty => ?_)⟩
        exact orClass_of_valid _ cell (isInvalid_orClass_some bound _ ty)
    · rw [if_neg hname, if_neg (Ne.symm hname)]
      exact ⟨cell, rfl⟩

/-- Of a type that says nothing and is not replaced, nothing is kept. -/
theorem filter_orClass (bound? : Option String) (cell : Nat) (ty : Ty) :
    (some (orClass bound? cell ty)).filter (!·.isInvalid) =
      if ty.isInvalid then bound?.map fun bound => .cls (.deferred bound cell) else some ty := by
  rw [Option.filter_some]
  cases hinvalid : ty.isInvalid with
  | false => rw [orClass_of_valid _ _ hinvalid, hinvalid]; rfl
  | true =>
    cases bound? with
    | none => rw [orClass_none, id, hinvalid]; rfl
    | some bound => rw [isInvalid_orClass_some, orClass, hinvalid]; rfl

/-- Bindings are kept if a type was found, or else the parameter declares a bound. -/
theorem get?_finish (u : Unifier) (h : u.bindings.Distinct) (sig : Signature) (memo : ClassMemo)
    (name : String) : ∃ cell, (u.finish sig memo).1.get? name =
      (u.bindings.get? name).bind fun ty =>
        if ty.isInvalid then
          (boundOf? sig.typeParams name).map fun bound => .cls (.deferred bound cell)
        else some ty := by
  obtain ⟨hdistinct, cell, hget⟩ := foldlM_orBound sig.typeParams h memo name
  refine ⟨cell, ?_⟩
  change ((sig.typeParams.foldlM orBound u.bindings memo).1.filter _).get? name = _
  rw [hdistinct.get?_filter, hget]
  cases u.bindings.get? name with
  | none => rfl
  | some ty => exact filter_orClass _ cell ty

end Unifier

/-- Bindings are equal if they bind the same names, each to equal types. -/
def Bindings.Same (b b' : Bindings) : Prop :=
  ∀ name, Option.Rel Ty.Same (b.get? name) (b'.get? name)

namespace Signature

/-- What actual types say about the type parameters, each read beside a formal type in turn. -/
def unified (sig : Signature) (pairs : List (Ty × Ty)) : Unifier :=
  ((pairs.forM fun pair => Unifier.unify pair.1 pair.2).run (.ofSignature sig)).2

/-- What is learned about a type parameter, unknown if it is nothing. -/
def learned (sig : Signature) (pairs : List (Ty × Ty)) (name : String) : Ty :=
  ((sig.unified pairs).bindings.get? name).getD .unknown

/-- The types that stand beside a name when actual types are read beside their formal types. -/
def found (pairs : List (Ty × Ty)) (name : String) : List Ty :=
  Unifier.about name
    (pairs.flatMap fun pair => Unifier.evidence maxSubstDepth pair.1 pair.2)

variable (sig : Signature) {pairs : List (Ty × Ty)}

/-- Reading ends at the level at which it began, and joins what was found with what nothing is known
about. -/
theorem unified_spec (pairs : List (Ty × Ty)) :
    (sig.unified pairs).depth.depth = 0 ∧
    (sig.unified pairs).bindings.Distinct ∧
    ∀ name, (sig.unified pairs).bindings.get? name =
      if name ∈ sig.typeParams.map (·.name) then some ((found pairs name).foldl Ty.join .unknown)
      else none := by
  obtain ⟨hitLimit, hreads⟩ := Unifier.Reads.forM (fun pair => Unifier.unify pair.1 pair.2)
    (fun pair => Unifier.evidence maxSubstDepth pair.1 pair.2) pairs
    (fun pair _ => Unifier.reads_unify pair.1 pair.2) (.ofSignature sig) (Nat.zero_add _)
  have hunified : sig.unified pairs = _ := congrArg Prod.snd hreads
  rw [hunified]
  refine ⟨rfl, Unifier.distinct_absorb (Unifier.distinct_ofSignature sig) _, fun name => ?_⟩
  rw [Unifier.get?_absorb, Unifier.get?_ofSignature]
  split <;> rfl

theorem learned_eq (pairs : List (Ty × Ty)) (name : String) : sig.learned pairs name =
    if name ∈ sig.typeParams.map (·.name) then (found pairs name).foldl Ty.join .unknown
    else .unknown := by
  rw [learned, (sig.unified_spec pairs).2.2]
  split <;> rfl

theorem found_append (first rest : List (Ty × Ty)) (name : String) :
    found (first ++ rest) name = found first name ++ found rest name := by
  rw [found, Unifier.about, List.flatMap_append, List.filterMap_append]
  rfl

theorem mem_found_iff {name : String} {ty : Ty} :
    ty ∈ found pairs name ↔
      ∃ pair ∈ pairs, (name, ty) ∈ Unifier.evidence maxSubstDepth pair.1 pair.2 := by
  simp only [found, Unifier.about, List.mem_filterMap, List.mem_flatMap]
  constructor
  · rintro ⟨⟨other, _⟩, ⟨pair, hpair, he⟩, hname⟩
    split at hname
    · rename_i heq
      obtain rfl := Option.some.inj hname
      exact ⟨pair, hpair, heq ▸ he⟩
    · cases hname
  · rintro ⟨pair, hpair, he⟩
    exact ⟨(name, ty), ⟨pair, hpair, he⟩, if_pos rfl⟩

section

variable (hpairs : ∀ pair ∈ pairs, pair.1.WellFormed)

include hpairs

theorem found_wellFormed (name : String) :
    ∀ ty ∈ found pairs name, ty.WellFormed ∧ ty.isInvalid = false := by
  intro ty hty
  obtain ⟨pair, hpair, he⟩ := mem_found_iff.mp hty
  exact Unifier.evidence_wellFormed maxSubstDepth (hpairs pair hpair) pair.2 _ he

theorem learned_wellFormed (name : String) : (sig.learned pairs name).WellFormed := by
  rw [learned_eq]
  split
  · exact .foldl_join (fun ty hty => (found_wellFormed hpairs name ty hty).1) .unknown
  · exact .unknown

theorem learned_ne_invalid (name : String) : sig.learned pairs name ≠ .invalid := by
  rw [learned_eq]
  split
  · refine Ty.WellFormed.foldl_join_ne_invalid
      (fun ty hty => (found_wellFormed hpairs name ty hty).1) .unknown nofun ?_
    rintro _ hty rfl
    cases (found_wellFormed hpairs name _ hty).2
  · exact nofun

/-- What is learned shows what the types show that stand beside the name. -/
theorem shows_learned {name : String} {m : Ty} (hm : m.WellFormed) :
    (sig.learned pairs name).Shows m ↔
      name ∈ sig.typeParams.map (·.name) ∧ ∃ ty ∈ found pairs name, ty.Shows m := by
  have hunknown : ¬Ty.unknown.Shows m := fun h => Bool.false_ne_true h.1.symm
  rw [learned_eq]
  split
  · rename_i hname
    rw [Ty.WellFormed.shows_foldl_join (fun ty hty => (found_wellFormed hpairs name ty hty).1)
      .unknown hm, or_iff_right hunknown, and_iff_right hname]
  · rename_i hname
    exact iff_of_false hunknown fun h => hname h.1

/-- What is learned from types is the union of what is learned from each alone. -/
theorem learned_same_unionAll (name : String) :
    (sig.learned pairs name).Same
      (Ty.unionAll (pairs.map fun pair => sig.learned [pair] name)) := by
  have hpair (pair : Ty × Ty) (h : pair ∈ pairs) : ∀ pair' ∈ [pair], pair'.1.WellFormed :=
    List.forall_mem_singleton.mpr (hpairs pair h)
  have heach : ∀ ty ∈ pairs.map fun pair => sig.learned [pair] name, ty.WellFormed :=
    List.forall_mem_map.mpr fun pair h => sig.learned_wellFormed (hpair pair h) name
  have hne : ∀ ty ∈ pairs.map fun pair => sig.learned [pair] name, ty ≠ .invalid :=
    List.forall_mem_map.mpr fun pair h => sig.learned_ne_invalid (hpair pair h) name
  have hunion := Ty.WellFormed.unionAll_ne_invalid heach hne
  refine (sig.learned_wellFormed hpairs name).same_of_shows_of_ne (.unionAll heach)
    (sig.learned_ne_invalid hpairs name) hunion fun m hm => ?_
  rw [Ty.WellFormed.shows_unionAll heach hm, sig.shows_learned hpairs hm]
  constructor
  · rintro ⟨hname, ty, hty, hshows⟩
    obtain ⟨pair, hmem, he⟩ := mem_found_iff.mp hty
    have hty' : ty ∈ found [pair] name :=
      mem_found_iff.mpr ⟨pair, List.mem_singleton_self pair, he⟩
    exact ⟨_, List.mem_map_of_mem hmem,
      (sig.shows_learned (hpair pair hmem) hm).mpr ⟨hname, ty, hty', hshows⟩⟩
  · rintro ⟨_, hlearned, halone⟩
    obtain ⟨pair, hmem, rfl⟩ := List.mem_map.mp hlearned
    obtain ⟨hname, ty, hty, hshows⟩ := (sig.shows_learned (hpair pair hmem) hm).mp halone
    obtain ⟨_, hsingle, he⟩ := mem_found_iff.mp hty
    obtain rfl := List.mem_singleton.mp hsingle
    exact ⟨hname, ty, mem_found_iff.mpr ⟨_, hmem, he⟩, hshows⟩

theorem learned_same_of_perm {pairs' : List (Ty × Ty)} (hperm : pairs.Perm pairs')
    (name : String) : (sig.learned pairs name).Same (sig.learned pairs' name) := by
  have hpairs' : ∀ pair ∈ pairs', pair.1.WellFormed := fun pair h =>
    hpairs pair (hperm.mem_iff.mpr h)
  refine (sig.learned_wellFormed hpairs name).same_of_shows_of_ne
    (sig.learned_wellFormed hpairs' name) (sig.learned_ne_invalid hpairs name)
    (sig.learned_ne_invalid hpairs' name) fun m hm => ?_
  simp only [sig.shows_learned hpairs hm, sig.shows_learned hpairs' hm, mem_found_iff,
    hperm.mem_iff]

/-- What was learned stays when more is read. -/
theorem shows_learned_append {rest : List (Ty × Ty)} {name : String} {m : Ty} (hm : m.WellFormed)
    (hrest : ∀ pair ∈ rest, pair.1.WellFormed) (h : (sig.learned pairs name).Shows m) :
    (sig.learned (pairs ++ rest) name).Shows m := by
  obtain ⟨hname, ty, hty, hshows⟩ := (sig.shows_learned hpairs hm).mp h
  refine (sig.shows_learned (List.forall_mem_append.mpr ⟨hpairs, hrest⟩) hm).mpr
    ⟨hname, ty, ?_, hshows⟩
  rw [found_append]
  exact List.mem_append_left _ hty

end

/-- What is kept of the bindings in the end. -/
theorem get?_finish_unified (pairs : List (Ty × Ty)) (memo : ClassMemo) (name : String) :
    ∃ cell, ((sig.unified pairs).finish sig memo).1.get? name =
      if name ∈ sig.typeParams.map (·.name) then
        if (sig.learned pairs name).isInvalid then
          (Unifier.boundOf? sig.typeParams name).map fun bound => .cls (.deferred bound cell)
        else some (sig.learned pairs name)
      else none := by
  obtain ⟨-, hdistinct, hget⟩ := sig.unified_spec pairs
  obtain ⟨cell, hkept⟩ := (sig.unified pairs).get?_finish hdistinct sig memo name
  refine ⟨cell, ?_⟩
  rw [hkept, hget, learned_eq]
  split <;> rfl

/-- What a call binds. -/
theorem bindArgs?_spec (hgeneric : sig.isGeneric = true) (args : List Ty) (memo : ClassMemo) :
    ∃ b, (sig.bindArgs? args memo).1 = some b ∧ ∀ name, ∃ cell, b.get? name =
      if name ∈ sig.typeParams.map (·.name) then
        if (sig.learned (sig.pairs args) name).isInvalid then
          (Unifier.boundOf? sig.typeParams name).map fun bound => .cls (.deferred bound cell)
        else some (sig.learned (sig.pairs args) name)
      else none := by
  refine ⟨((sig.unified (sig.pairs args)).finish sig memo).1, ?_,
    sig.get?_finish_unified (sig.pairs args) memo⟩
  rw [bindArgs?, hgeneric]
  rfl

/-- In the end a type parameter is bound to what was learned about it, or else to a class of a bound
that it declares. -/
theorem kept_iff (pairs : List (Ty × Ty)) (memo : ClassMemo) (name : String) :
    let kept := ((sig.unified pairs).finish sig memo).1.get? name
    (kept.isSome = true ↔ ∃ p ∈ sig.typeParams, p.name = name ∧
      ((sig.learned pairs name).isInvalid = false ∨ p.bound?.isSome = true)) ∧
    ∀ ty, kept = some ty →
      if (sig.learned pairs name).isInvalid then ∃ p ∈ sig.typeParams, p.name = name ∧
        ∃ bound cell, p.bound? = some bound ∧ ty = .cls (.deferred bound cell)
      else ty = sig.learned pairs name := by
  intro kept
  obtain ⟨cell, hkept⟩ := sig.get?_finish_unified pairs memo name
  change kept = _ at hkept
  by_cases hname : name ∈ sig.typeParams.map (·.name)
  · rw [if_pos hname] at hkept
    cases hlearned : (sig.learned pairs name).isInvalid with
    | false =>
      rw [hlearned, if_neg Bool.false_ne_true] at hkept
      obtain ⟨p, hp, hpname⟩ := List.mem_map.mp hname
      refine ⟨iff_of_true (hkept ▸ rfl) ⟨p, hp, hpname, .inl rfl⟩, fun ty hty => ?_⟩
      exact (Option.some.inj (hkept.symm.trans hty)).symm
    | true =>
      rw [hlearned, if_pos rfl] at hkept
      rw [hkept]
      constructor
      · simp only [Option.isSome_map, Unifier.isSome_boundOf?_iff, reduceCtorEq, false_or]
      · intro ty hty
        obtain ⟨bound, hbound, rfl⟩ := Option.map_eq_some_iff.mp hty
        obtain ⟨p, hp, hpname, hpbound⟩ := Unifier.exists_of_boundOf? hbound
        exact ⟨p, hp, hpname, bound, cell, hpbound, rfl⟩
  · rw [if_neg hname] at hkept
    refine ⟨iff_of_false (hkept ▸ Bool.false_ne_true) ?_, fun ty hty => ?_⟩
    · rintro ⟨p, hp, rfl, -⟩
      exact hname (List.mem_map_of_mem hp)
    · cases hkept.symm.trans hty

/-- Type parameters are bound to what stands beside them, which is the union of what each actual type
says on its own, so that nothing read is lost again and no order matters. Every walk ends at the
level at which it began, however deep the types nest, and what is kept is what was learned, or else
a declared bound. -/
theorem unified_accumulates {pairs : List (Ty × Ty)} (hpairs : ∀ pair ∈ pairs, pair.1.WellFormed) :
    (∀ name, ((sig.unified pairs).bindings.get? name).isSome = true ↔
      name ∈ sig.typeParams.map (·.name)) ∧
    (∀ (name : String) (m : Ty), m.WellFormed → ((sig.learned pairs name).Shows m ↔
      name ∈ sig.typeParams.map (·.name) ∧ ∃ ty ∈ found pairs name, ty.Shows m)) ∧
    (∀ name, (sig.learned pairs name).Same
      (.unionAll (pairs.map fun pair => sig.learned [pair] name))) ∧
    (∀ first rest, pairs = first ++ rest → ∀ (name : String) (m : Ty), m.WellFormed →
      (sig.learned first name).Shows m → (sig.learned pairs name).Shows m) ∧
    (∀ pairs', pairs.Perm pairs' →
      (sig.unified pairs).bindings.Same (sig.unified pairs').bindings) ∧
    (∀ count, (sig.unified (pairs.take count)).depth.depth = 0) ∧
    ∀ memo name, let kept := ((sig.unified pairs).finish sig memo).1.get? name
      (kept.isSome = true ↔ ∃ p ∈ sig.typeParams, p.name = name ∧
        ((sig.learned pairs name).isInvalid = false ∨ p.bound?.isSome = true)) ∧
      ∀ ty, kept = some ty →
        if (sig.learned pairs name).isInvalid then ∃ p ∈ sig.typeParams, p.name = name ∧
          ∃ bound cell, p.bound? = some bound ∧ ty = .cls (.deferred bound cell)
        else ty = sig.learned pairs name := by
  refine ⟨fun name => ?_, fun name m => sig.shows_learned hpairs, sig.learned_same_unionAll hpairs,
    ?_, fun pairs' hperm name => ?_, fun count => (sig.unified_spec _).1, sig.kept_iff pairs⟩
  · rw [(sig.unified_spec pairs).2.2]
    split <;> simp [*]
  · rintro first rest rfl name m hm
    obtain ⟨hfirst, hrest⟩ := List.forall_mem_append.mp hpairs
    exact sig.shows_learned_append hfirst hm hrest
  · have hsame := sig.learned_same_of_perm hpairs hperm name
    rw [learned_eq, learned_eq] at hsame
    rw [(sig.unified_spec pairs).2.2, (sig.unified_spec pairs').2.2]
    split
    · rename_i hname
      rw [if_pos hname, if_pos hname] at hsame
      exact .some hsame
    · exact .none

/-- A function with three type parameters, of which one declares a bound. -/
def choosing : Signature :=
  ⟨false, [], none, .unknown, [⟨"T", none⟩, ⟨"U", some "Base"⟩, ⟨"V", none⟩]⟩

/-- The second type nests too deep to be read to its end. -/
theorem unified_accumulates_nested :
    let t : Ty := .cls (.deferred "T" 0)
    let pairs : List (Ty × Ty) :=
      [(.string, t), (Ty.array^[60] .number, Ty.array^[60] t), (.number, t)]
    (∀ pair ∈ pairs, pair.1.WellFormed) ∧
    (choosing.unified pairs).depth.hitLimit = true ∧
    (choosing.unified (pairs.take 2)).depth.depth = 0 ∧
    (choosing.learned pairs "T" == .union [.string, .number]) = true ∧
    (choosing.learned pairs "T").Same
      (.unionAll (pairs.map fun pair => choosing.learned [pair] "T")) ∧
    (choosing.unified pairs).bindings.Same (choosing.unified pairs.reverse).bindings ∧
    (((choosing.unified pairs).finish choosing {}).1.get? "U").isSome = true ∧
    (((choosing.unified pairs).finish choosing {}).1.get? "V").isSome = false := by
  intro t pairs
  have hpairs : ∀ pair ∈ pairs, pair.1.WellFormed := by
    have hdeep : (Ty.array^[60] .number).WellFormed :=
      Function.Iterate.rec Ty.WellFormed (.prim .number) (fun _ h => .array h) 60
    simp only [pairs, List.forall_mem_cons]
    exact ⟨.prim .string, hdeep, .prim .number, List.forall_mem_nil _⟩
  obtain ⟨-, -, hunion, -, hperm, hdepth, hkept⟩ := choosing.unified_accumulates hpairs
  have hbound : ⟨"U", some "Base"⟩ ∈ choosing.typeParams := by simp [choosing]
  exact ⟨hpairs, by decide +kernel, hdepth 2, by decide +kernel, hunion "T",
    hperm _ pairs.reverse_perm.symm, (hkept {} "U").1.mpr ⟨_, hbound, rfl, .inr rfl⟩,
    by decide +kernel⟩

end Signature

end LuaTypes
