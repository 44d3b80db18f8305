import LuaTypes.Proofs.Subtypes

/-!
Subtypes and unions. Among types whose classes were met by name, equal types have the same subtypes
and the same supertypes. So it does not matter which of two equal members a union kept, nor in which
order, and a union is the least upper bound that it should be.
-/

namespace LuaTypes

namespace Ty

/-- A property of the type and of all types within it. -/
inductive Everywhere (P : Ty → Prop) : Ty → Prop
  | intro {ty : Ty} : P ty → (∀ part ∈ ty.parts, Everywhere P part) → Everywhere P ty

namespace Everywhere

variable {P : Ty → Prop} {ty : Ty}

theorem here (h : ty.Everywhere P) : P ty := by
  cases h with
  | intro hty _ => exact hty

theorem part (h : ty.Everywhere P) : ∀ part ∈ ty.parts, part.Everywhere P := by
  cases h with
  | intro _ hparts => exact hparts

theorem each (h : ty.Everywhere P) : ∀ m ∈ ty.each, m.Everywhere P := by
  cases ty with
  | union members => exact h.part
  | _ => exact List.forall_mem_singleton.mpr h

end Everywhere

/-- All classes in the type were met by name, so that their details are what the resolver says. -/
abbrev MetByName : Ty → Prop :=
  Everywhere fun ty => ∀ c, ty = .cls c → ∃ cell, c = .deferred c.name cell

theorem MetByName.deferred (name : String) (cell : Nat) :
    MetByName (.cls (.deferred name cell)) := by
  refine .intro ?_ nofun
  rintro c ⟨⟩
  exact ⟨cell, rfl⟩

theorem MetByName.union {members : List Ty} (h : ∀ m ∈ members, m.MetByName) :
    MetByName (.union members) :=
  .intro nofun h

variable {r : Resolver}

theorem ne_union_of_same {a b : Ty} (h : a.Same b) (ha : ∀ members, a ≠ .union members) :
    ∀ members, b ≠ .union members := by
  rintro members rfl
  cases a with
  | union own => exact ha own rfl
  | _ => cases h

theorem isUniversalTable_of_same {c d : ClassTy} (h : (cls c).Same (cls d)) :
    c.isUniversalTable = d.isUniversalTable := by
  obtain ⟨hname, hflags⟩ := (same_cls_iff c d).mp h
  simp [ClassTy.isUniversalTable, hname, hflags]

/-- Classes of one name that were met by name have the same superclasses. -/
theorem inherits_of_same {c c' d d' : ClassTy} (hc : MetByName (.cls c)) (hc' : MetByName (.cls c'))
    (hcc' : (cls c).Same (cls c')) (hdd' : (cls d).Same (cls d')) (h : c.Inherits r d) :
    c'.Inherits r d' := by
  obtain ⟨cell, hcell⟩ := hc.here c rfl
  obtain ⟨cell', hcell'⟩ := hc'.here c' rfl
  obtain ⟨hname, -⟩ := (same_cls_iff c c').mp hcc'
  have hancestors : c'.ancestorsBy r = c.ancestorsBy r := by
    rw [hcell, hcell', ← hname]
    rfl
  obtain ⟨hon, e, he, hed⟩ := h
  refine ⟨hon, e, hancestors ▸ he, ?_⟩
  have hsame : (cls e).Same (cls d) := hed
  rw [same_cls_iff] at hsame hdd'
  exact (same_cls_iff e d').mpr ⟨hsame.1.trans hdd'.1, hsame.2.trans hdd'.2⟩

/-- Equal types are subtypes of equal types alike. -/
theorem Sub.congr {a b a' b' : Ty} (h : Sub r a b) (ha : a.WellFormed) (hb : b.WellFormed)
    (ha' : a'.WellFormed) (hb' : b'.WellFormed) (hnamed : a.MetByName) (hnamed' : a'.MetByName)
    (haa' : a.Same a') (hbb' : b.Same b') : Sub r a' b' := by
  induction h generalizing a' b' with
  | same hab =>
    have hback := ha.same_symm _ ha' haa'
    exact .same (ha'.same_trans _ _ hback (ha.same_trans _ _ hab hbb'))
  | fromSentinel hva => exact .fromSentinel ((isInvalid_of_same haa').symm.trans hva)
  | toSentinel hvb => exact .toSentinel ((isInvalid_of_same hbb').symm.trans hvb)
  | @union members b _ ih =>
    cases a' with
    | union members' =>
      refine .union fun m' hm' => ?_
      have hback := (same_union_iff _ _).mp (ha.same_symm _ ha' haa')
      obtain ⟨m, hm, hsame⟩ := hback.2 m' hm'
      have hmm' := (ha'.part m' hm').same_symm m (ha.part m hm) hsame
      exact ih m hm (ha.part m hm) hb (ha'.part m' hm') hb' (hnamed.part m hm) (hnamed'.part m' hm')
        hmm' hbb'
    | _ => cases haa'
  | member hunion hm _ ih =>
    cases b' with
    | union members' =>
      obtain ⟨m', hm', hmm'⟩ := ((same_union_iff _ _).mp hbb').2 _ hm
      exact .member (ne_union_of_same haa' hunion) hm'
        (ih ha (hb.part _ hm) ha' (hb'.part m' hm') hnamed hnamed' haa' hmm')
    | _ => cases hbb'
  | @generic base b args hunion _ ih =>
    cases a' with
    | generic base' args' =>
      obtain ⟨hbase, -⟩ := List.forall₂_cons.mp ((same_generic_iff _ _ _ _).mp haa')
      exact .generic (ne_union_of_same hbb' hunion)
        (ih (ha.part base List.mem_cons_self) hb (ha'.part base' List.mem_cons_self) hb'
          (hnamed.part base List.mem_cons_self) (hnamed'.part base' List.mem_cons_self) hbase hbb')
    | _ => cases haa'
  | table htable =>
    cases a' with
    | cls c' =>
      cases b' with
      | cls target' => exact .table ((isUniversalTable_of_same hbb').symm.trans htable)
      | _ => cases hbb'
    | _ => cases haa'
  | arrayTable htable =>
    cases a' with
    | array element' =>
      cases b' with
      | cls target' => exact .arrayTable ((isUniversalTable_of_same hbb').symm.trans htable)
      | _ => cases hbb'
    | _ => cases haa'
  | inherits hinherits =>
    cases a' with
    | cls c' =>
      cases b' with
      | cls target' => exact .inherits (inherits_of_same hnamed hnamed' haa' hbb' hinherits)
      | _ => cases hbb'
    | _ => cases haa'
  | @emptyLiteral c element file node horigin =>
    obtain ⟨cell, hcell⟩ := hnamed.here c rfl
    rw [hcell] at horigin
    cases horigin
  | base _ ih =>
    cases b' with
    | generic base' args' =>
      obtain ⟨hbase, -⟩ := List.forall₂_cons.mp ((same_generic_iff _ _ _ _).mp hbb')
      cases a' with
      | cls c' =>
        exact .base (ih ha (hb.part _ List.mem_cons_self) ha' (hb'.part base' List.mem_cons_self)
          hnamed hnamed' haa' hbase)
      | _ => cases haa'
    | _ => cases hbb'
  | @element x y _ ih =>
    cases a' with
    | array x' =>
      cases b' with
      | array y' =>
        have hself {ty : Ty} : ty ∈ (array ty).parts := List.mem_singleton_self ty
        exact .element (ih (ha.part x hself) (hb.part y hself) (ha'.part x' hself)
          (hb'.part y' hself) (hnamed.part x hself) (hnamed'.part x' hself) haa' hbb')
      | _ => cases hbb'
    | _ => cases haa'
  | func =>
    cases a' with
    | func main overloads =>
      cases b' with
      | func main' overloads' => exact .func
      | _ => cases hbb'
    | _ => cases haa'

/-! Unions on either side. -/

namespace WellFormed

variable {a b c : Ty}

/-- A type fits where all its members fit. -/
theorem sub_iff_each (ha : a.WellFormed) (hc : c.WellFormed) :
    Sub r a c ↔ ∀ m ∈ a.each, Sub r m c := by
  cases a with
  | union members =>
    refine ⟨fun hsub m hm => ?_, .union⟩
    cases hsub with
    | same hsame =>
      cases c with
      | union members' =>
        obtain ⟨m', hm', hmm'⟩ := ((same_union_iff _ _).mp hsame).2 m hm
        have hplain := (ha.canonical members rfl).2.plain m hm
        exact .member (by rintro own rfl; cases hplain) hm' (.same hmm')
      | _ => cases hsame
    | fromSentinel hva => cases hva
    | toSentinel hvc => exact .toSentinel hvc
    | union hall => exact hall m hm
    | member hunion => exact absurd rfl (hunion members)
  | _ => exact ⟨fun h => List.forall_mem_singleton.mpr h, fun h => h _ (List.mem_singleton_self _)⟩

/-- A type that is no union fits where some member takes it. -/
theorem sub_iff_exists_each (hunion : ∀ members, a ≠ .union members) (hb : b.WellFormed) :
    Sub r a b ↔ ∃ n ∈ b.each, Sub r a n := by
  cases b with
  | union members =>
    refine ⟨fun hsub => ?_, fun ⟨n, hn, hsub⟩ => .member hunion hn hsub⟩
    cases hsub with
    | same hsame =>
      cases a with
      | union own => exact absurd rfl (hunion own)
      | _ => cases hsame
    | fromSentinel hva =>
      obtain ⟨n, hn⟩ := List.exists_mem_of_ne_nil _ hb.each_ne_nil
      exact ⟨n, hn, .fromSentinel hva⟩
    | toSentinel hvb => cases hvb
    | union => exact absurd rfl (hunion _)
    | member _ hn hsub => exact ⟨_, hn, hsub⟩
    | generic hright => exact absurd rfl (hright members)
  | _ => exact ⟨fun hsub => ⟨_, List.mem_singleton_self _, hsub⟩,
      fun ⟨n, hn, hsub⟩ => List.mem_singleton.mp hn ▸ hsub⟩

variable (ha : a.WellFormed) (hb : b.WellFormed) (hc : c.WellFormed)

include ha hb hc

/-- A join fits where both types fit. -/
theorem sub_join_left (hnamed : a.MetByName) (hnamed' : b.MetByName) (hva : a.isInvalid = false)
    (hvb : b.isInvalid = false) : Sub r (a.join b) c ↔ Sub r a c ∧ Sub r b c := by
  have hjoin := ha.join hb
  have heach := (each_join ha hb hva hvb).1
  have hnamedEach : ∀ m ∈ (a.join b).each, m.MetByName := fun m hm => by
    rw [heach] at hm
    rcases List.mem_append.mp hm with hm | hm
    · exact hnamed.each m hm
    · exact hnamed'.each m (List.mem_filter.mp hm).1
  -- A member that the join left out equals one that it kept.
  have hkept {m : Ty} (hm : m.WellFormed) (hmNamed : m.MetByName)
      (hmem : m.Among a.each ∨ m.Among b.each) (hall : ∀ n ∈ (a.join b).each, Sub r n c) :
      Sub r m c := by
    obtain ⟨n, hn, hmn⟩ := (among_join_iff ha hb hva hvb hm).mpr hmem
    have hnm := hm.same_symm n (hjoin.each n hn) hmn
    exact (hall n hn).congr (hjoin.each n hn) hc hm hc (hnamedEach n hn) hmNamed hnm (same_refl c)
  rw [hjoin.sub_iff_each hc, ha.sub_iff_each hc, hb.sub_iff_each hc]
  constructor
  · refine fun hall => ⟨fun m hm => ?_, fun m hm => ?_⟩
    · exact hkept (ha.each m hm) (hnamed.each m hm) (.inl (among_of_mem hm)) hall
    · exact hkept (hb.each m hm) (hnamed'.each m hm) (.inr (among_of_mem hm)) hall
  · rintro ⟨hleft, hright⟩ m hm
    rw [heach] at hm
    rcases List.mem_append.mp hm with hm | hm
    · exact hleft m hm
    · exact hright m (List.mem_filter.mp hm).1

/-- A type that is no union fits into a join if it fits into one of the two types. -/
theorem sub_join_right (hunion : ∀ members, a ≠ .union members) (hnamed : a.MetByName)
    (hvb : b.isInvalid = false) (hvc : c.isInvalid = false) :
    Sub r a (b.join c) ↔ Sub r a b ∨ Sub r a c := by
  have hjoin := hb.join hc
  rw [sub_iff_exists_each hunion hjoin, sub_iff_exists_each hunion hb,
    sub_iff_exists_each hunion hc]
  constructor
  · rintro ⟨n, hn, hsub⟩
    rw [(each_join hb hc hvb hvc).1] at hn
    rcases List.mem_append.mp hn with hn | hn
    · exact .inl ⟨n, hn, hsub⟩
    · exact .inr ⟨n, (List.mem_filter.mp hn).1, hsub⟩
  · have hkept {n : Ty} (hn : n.WellFormed) (hmem : n.Among b.each ∨ n.Among c.each)
        (hsub : Sub r a n) : ∃ k ∈ (b.join c).each, Sub r a k := by
      obtain ⟨k, hk, hnk⟩ := (among_join_iff hb hc hvb hvc hn).mpr hmem
      exact ⟨k, hk, hsub.congr ha hn ha (hjoin.each k hk) hnamed hnamed (same_refl a) hnk⟩
    rintro (⟨n, hn, hsub⟩ | ⟨n, hn, hsub⟩)
    · exact hkept (hb.each n hn) (.inl (among_of_mem hn)) hsub
    · exact hkept (hc.each n hn) (.inr (among_of_mem hn)) hsub

end WellFormed

/-- What a check answers does not depend on what was noted before. -/
theorem subtype_eq_subtype (h : r.ready = true) {memo memo' : ClassMemo} (hmemo : memo.Agrees r)
    (hmemo' : memo'.Agrees r) (a b : Ty) : (a.subtype r b memo).1 = (a.subtype r b memo').1 := by
  rw [Bool.eq_iff_iff, subtype_iff h hmemo, subtype_iff h hmemo']

end Ty

namespace ClassMemo

/-- The memo after subtype checks, one after the other. -/
def afterChecks (r : Resolver) (memo : ClassMemo) (checks : List (Ty × Ty)) : ClassMemo :=
  checks.foldl (fun memo (a, b) => (a.subtype r b memo).2) memo

theorem Agrees.afterChecks {r : Resolver} (h : r.ready = true) {memo : ClassMemo}
    (hmemo : memo.Agrees r) (checks : List (Ty × Ty)) : (memo.afterChecks r checks).Agrees r :=
  List.foldlRecOn (motive := fun memo : ClassMemo => memo.Agrees r) checks _ hmemo
    fun _ hmemo (a, b) _ => Ty.agrees_subtype h hmemo a b

end ClassMemo

/-- Among types whose classes were met by name, a join fits where both types fit, a type that is no
union fits into a join if it fits into one of its parts, and equal types fit alike, whatever was
checked before. -/
theorem Ty.WellFormed.subtype_laws {r : Resolver} (hready : r.ready = true) {a b c : Ty}
    (ha : a.WellFormed) (hb : b.WellFormed) (hc : c.WellFormed) (hnamed : a.MetByName)
    (hnamed' : b.MetByName) (hva : a.isInvalid = false) (hvb : b.isInvalid = false)
    (hvc : c.isInvalid = false) :
    let sub (x y : Ty) : Bool := (x.subtype r y {}).1
    sub (a.join b) c = (sub a c && sub b c) ∧
    ((∀ members, a ≠ .union members) → sub a (b.join c) = (sub a b || sub a c)) ∧
    (∀ a' b' : Ty, a'.WellFormed → b'.WellFormed → a'.MetByName → (a == a') = true →
      (b == b') = true → sub a b = sub a' b') ∧
    ∀ (memo : ClassMemo) (checks : List (Ty × Ty)) (x y : Ty), memo.Agrees r →
      (x.subtype r y (memo.afterChecks r checks)).1 = sub x y := by
  intro sub
  have hempty := ClassMemo.agrees_empty r
  have hsub (x y : Ty) : sub x y = true ↔ Sub r x y := subtype_iff hready hempty x y
  refine ⟨?_, fun hunion => ?_, fun a' b' ha' hb' hnamedA hsameA hsameB => ?_,
    fun memo checks x y hmemo => ?_⟩
  · rw [Bool.eq_iff_iff, Bool.and_eq_true, hsub, hsub, hsub]
    exact sub_join_left ha hb hc hnamed hnamed' hva hvb
  · rw [Bool.eq_iff_iff, Bool.or_eq_true, hsub, hsub, hsub]
    exact sub_join_right ha hb hc hunion hnamed hvb hvc
  · rw [Bool.eq_iff_iff, hsub, hsub]
    constructor
    · exact fun h => h.congr ha hb ha' hb' hnamed hnamedA hsameA hsameB
    · exact fun h => h.congr ha' hb' ha hb hnamedA hnamed (ha.same_symm a' ha' hsameA)
        (hb.same_symm b' hb' hsameB)
  · exact subtype_eq_subtype hready (hmemo.afterChecks hready checks) hempty x y

/-- Dogs and cats are animals. -/
def Resolver.zoo : Resolver :=
  { Resolver.empty with
    details? := fun name =>
      if name = "Dog" ∨ name = "Cat" then some { supers := ["Animal"] }
      else if name = "Animal" then some {}
      else none }

/-- Two unions of the same class from two places, checked twice. -/
theorem Ty.WellFormed.subtype_laws_zoo :
    let dog : Ty := .cls (.deferred "Dog" 0)
    let pets : Ty := .union [.cls (.deferred "Cat" 1), .cls (.deferred "Dog" 2)]
    let animal : Ty := .cls (.deferred "Animal" 3)
    let sub (x y : Ty) : Bool := (x.subtype .zoo y {}).1
    sub (dog.join pets) animal = (sub dog animal && sub pets animal) ∧
    sub dog (pets.join animal) = (sub dog pets || sub dog animal) ∧
    (pets.subtype .zoo animal (ClassMemo.afterChecks .zoo {} [(dog, animal), (animal, dog)])).1
      = sub pets animal := by
  intro dog pets animal sub
  have hdog : dog.WellFormed := .cls_of_docFields rfl
  have hpets : pets.WellFormed := .pair (.cls_of_docFields rfl) (.cls_of_docFields rfl) rfl
  have hanimal : animal.WellFormed := .cls_of_docFields rfl
  have hnamed : pets.MetByName := .union (List.forall_mem_cons.mpr
    ⟨.deferred "Cat" 1, List.forall_mem_singleton.mpr (.deferred "Dog" 2)⟩)
  obtain ⟨hleft, hright, -, hmemo⟩ :=
    subtype_laws (r := .zoo) rfl hdog hpets hanimal (.deferred "Dog" 0) hnamed rfl rfl rfl
  exact ⟨hleft, hright nofun,
    hmemo {} [(dog, animal), (animal, dog)] pets animal (ClassMemo.agrees_empty _)⟩

end LuaTypes
