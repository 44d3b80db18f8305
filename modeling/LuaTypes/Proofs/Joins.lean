import Mathlib.Data.Fintype.Card
import LuaTypes.Proofs.Equality
import LuaTypes.Proofs.RenamedTypes

/-!
Joins of well-formed types. The members of a join are those of the first type and then those of the
second that equal none of the first, so that joins of equal types are equal, and joining is
idempotent, commutative and associative up to equality.
-/

namespace LuaTypes

/-- If everything has a partner and no two things have the same one, there are as many partners. -/
theorem length_le_of_partner {α : Type} {R : α → α → Prop} {as bs : List α}
    (hpartner : ∀ a ∈ as, ∃ b ∈ bs, R a b)
    (hown : as.Pairwise fun a a' => ∀ b ∈ bs, R a b → ¬R a' b) : as.length ≤ bs.length := by
  have hindex (i : Fin as.length) : ∃ j : Fin bs.length, R as[i] bs[j] := by
    obtain ⟨b, hb, hab⟩ := hpartner as[i] (List.getElem_mem _)
    obtain ⟨j, hj, rfl⟩ := List.mem_iff_getElem.mp hb
    exact ⟨⟨j, hj⟩, hab⟩
  choose partner hpartner using hindex
  have hapart (i j : Fin as.length) (hlt : i < j) : partner i ≠ partner j := by
    intro heq
    have hj := hpartner j
    rw [← heq] at hj
    exact List.pairwise_iff_getElem.mp hown i j i.2 j.2 hlt _ (List.getElem_mem _) (hpartner i) hj
  have hinjective : Function.Injective partner := by
    intro i j heq
    rcases lt_trichotomy i j with hlt | rfl | hlt
    · exact absurd heq (hapart i j hlt)
    · rfl
    · exact absurd heq.symm (hapart j i hlt)
  simpa using Fintype.card_le_of_injective partner hinjective

/-! Members up to equality. -/

namespace Ty

theorem same_refl (a : Ty) : a.Same a := by
  have h := same_self (fun cell => cell) a
  rwa [rename_id] at h

/-- Something in the list equals the type. -/
def Among (ty : Ty) (members : List Ty) : Prop := ∃ m ∈ members, ty.Same m

theorem among_of_mem {ty : Ty} {members : List Ty} (h : ty ∈ members) : ty.Among members :=
  ⟨ty, h, same_refl ty⟩

theorem isInvalid_of_same {a b : Ty} (h : a.Same b) : a.isInvalid = b.isInvalid := by
  cases a <;> cases b <;> first | rfl | cases h

/-- A sentinel equals no other type. -/
theorem eq_of_same {a b : Ty} (h : a.Same b) (ha : a.isInvalid = true) : a = b := by
  cases a with
  | unknown | invalid => cases b <;> first | rfl | cases h
  | _ => cases ha

namespace WellFormed

variable {a b : Ty} (ha : a.WellFormed) (hb : b.WellFormed)

include ha

theorem each_distinct : a.each.Pairwise fun m n => m.same n = false := by
  cases a with
  | union members => exact (ha.canonical members rfl).2.distinct
  | _ => exact List.pairwise_singleton _ _

include hb

/-- Types that are no sentinels are equal if they have as many members and those of the one are
among those of the other. -/
theorem same_iff_each (hva : a.isInvalid = false) (hvb : b.isInvalid = false) :
    a.Same b ↔ a.each.length = b.each.length ∧ ∀ m ∈ a.each, m.Among b.each := by
  cases a with
  | unknown | invalid => cases hva
  | union members =>
    have htwo := (ha.canonical members rfl).1
    cases b with
    | unknown | invalid => cases hvb
    | union members' => exact same_union_iff members members'
    | _ =>
      refine iff_of_false (fun h => by cases h) fun h => ?_
      have hone : members.length = 1 := h.1
      omega
  | _ =>
    cases b with
    | unknown | invalid => cases hvb
    | union members' =>
      have htwo := (hb.canonical members' rfl).1
      refine iff_of_false (fun h => by cases h) fun h => ?_
      have hone : 1 = members'.length := h.1
      omega
    | _ => simp [Ty.each, Among]

/-- Types are equal if the members of each are among those of the other. -/
theorem same_of_among (hva : a.isInvalid = false) (hvb : b.isInvalid = false)
    (hab : ∀ m ∈ a.each, m.Among b.each) (hba : ∀ n ∈ b.each, n.Among a.each) : a.Same b := by
  have hlength {x y : Ty} (hx : x.WellFormed) (hy : y.WellFormed)
      (hxy : ∀ m ∈ x.each, m.Among y.each) : x.each.length ≤ y.each.length := by
    refine length_le_of_partner hxy (hx.each_distinct.imp_of_mem ?_)
    intro m n hm hn hne other hother hm' hn'
    have hback : other.Same n := (hx.each n hn).same_symm other (hy.each other hother) hn'
    exact Bool.eq_false_iff.mp hne ((hx.each m hm).same_trans other n hm' hback)
  exact (same_iff_each ha hb hva hvb).mpr ⟨le_antisymm (hlength ha hb hab) (hlength hb ha hba), hab⟩

end WellFormed

end Ty

/-! Members that are collected. -/

namespace UnionBuilder

open Ty (WellFormed)

/-- Of types that all differ, those are added that equal none of the members. -/
theorem foldl_insert {types : List Ty} (h : types.Pairwise fun a b => a.same b = false)
    (members : List Ty) : types.foldl insert members
      = members ++ types.filter fun ty => !members.any (· == ty) := by
  induction types generalizing members with
  | nil => exact (List.append_nil _).symm
  | cons ty types ih =>
    obtain ⟨hdiffers, htypes⟩ := List.pairwise_cons.mp h
    rw [List.foldl_cons, ih htypes, List.filter_cons, insert]
    cases hany : members.any (· == ty) with
    | true => simp
    | false =>
      -- The new member equals none of those that are still to come.
      have hfilter : types.filter (fun other => !(members ++ [ty]).any (· == other))
          = types.filter fun other => !members.any (· == other) := by
        refine List.filter_congr fun other hother => ?_
        have hne : (ty == other) = false := hdiffers other hother
        simp [hne]
      rw [if_neg Bool.false_ne_true, hfilter, List.append_assoc]
      rfl

theorem members_add {ty : Ty} (h : ty.WellFormed) (hvalid : ty.isInvalid = false)
    (b : UnionBuilder) : (b.add ty).members
      = b.members ++ ty.each.filter fun m => !b.members.any (· == m) := by
  rw [← foldl_insert h.each_distinct]
  cases ty with
  | unknown | invalid => cases hvalid
  | _ => rfl

/-- The members that were collected are those of the union. -/
theorem each_type {b : UnionBuilder} (h : Proper b.members) (hne : b.members ≠ []) :
    b.type.each = b.members ∧ b.type.isInvalid = false := by
  obtain ⟨members, sawUnknown, sawInvalid⟩ := b
  rcases members with _ | ⟨ty, _ | ⟨other, rest⟩⟩
  · exact absurd rfl hne
  · have hplain := h.plain ty (List.mem_singleton_self ty)
    change ty.each = [ty] ∧ ty.isInvalid = false
    cases ty with
    | unknown | invalid | union members => cases hplain
    | _ => exact ⟨rfl, rfl⟩
  · exact ⟨rfl, rfl⟩

end UnionBuilder

/-! Joins. -/

namespace Ty.WellFormed

variable {a b : Ty} (ha : a.WellFormed) (hb : b.WellFormed)

include ha

theorem each_ne_nil : a.each ≠ [] := by
  cases a with
  | union members =>
    have htwo := (ha.canonical members rfl).1
    exact List.ne_nil_of_length_pos (show 0 < members.length by omega)
  | _ => exact List.cons_ne_nil _ _

include hb

/-- The members of a join are those of the first type in their order, followed by those of the
second that equal none of them. -/
theorem each_join (hva : a.isInvalid = false) (hvb : b.isInvalid = false) :
    (a.join b).each = a.each ++ (b.each.filter fun m => !a.each.any (· == m)) ∧
      (a.join b).isInvalid = false := by
  rw [Ty.join, hva, hvb]
  dsimp only
  split
  · rename_i hsame
    have hback : b.Same a := ha.same_symm b hb hsame
    have hnone : (b.each.filter fun m => !a.each.any (· == m)) = [] := by
      refine List.filter_eq_nil_iff.mpr fun m hm => ?_
      obtain ⟨n, hn, hmn⟩ := ((same_iff_each hb ha hvb hva).mp hback).2 m hm
      have hnm : n.Same m := (hb.each m hm).same_symm n (ha.each n hn) hmn
      have hany : a.each.any (· == m) = true := List.any_eq_true.mpr ⟨n, hn, hnm⟩
      simp [hany]
    rw [hnone, List.append_nil]
    exact ⟨rfl, hva⟩
  · have hfirst : (UnionBuilder.add {} a).members = a.each := by
      rw [UnionBuilder.members_add ha hva]
      simp
    have hboth : ((UnionBuilder.add {} a).add b).members
        = a.each ++ b.each.filter fun m => !a.each.any (· == m) := by
      rw [UnionBuilder.members_add hb hvb, hfirst]
    have hproper := (UnionBuilder.Proper.nil.add (b := {}) ha).add hb
    have hne : ((UnionBuilder.add {} a).add b).members ≠ [] := by
      rw [hboth]
      exact List.append_ne_nil_of_left_ne_nil ha.each_ne_nil _
    rw [← hboth]
    exact UnionBuilder.each_type hproper hne

/-- What equals a member of one of two types equals a member of their join. -/
theorem among_join_iff (hva : a.isInvalid = false) (hvb : b.isInvalid = false) {m : Ty}
    (hm : m.WellFormed) :
    m.Among (a.join b).each ↔ m.Among a.each ∨ m.Among b.each := by
  rw [(each_join ha hb hva hvb).1]
  constructor
  · rintro ⟨n, hn, hmn⟩
    rcases List.mem_append.mp hn with hn | hn
    · exact .inl ⟨n, hn, hmn⟩
    · exact .inr ⟨n, (List.mem_filter.mp hn).1, hmn⟩
  · rintro (⟨n, hn, hmn⟩ | ⟨n, hn, hmn⟩)
    · exact ⟨n, List.mem_append_left _ hn, hmn⟩
    · cases hany : a.each.any (· == n) with
      | false =>
        exact ⟨n, List.mem_append_right _ (List.mem_filter.mpr ⟨hn, by simp [hany]⟩), hmn⟩
      | true =>
        obtain ⟨k, hk, hkn⟩ := List.any_eq_true.mp hany
        have hnk : n.Same k := (ha.each k hk).same_symm n (hb.each n hn) hkn
        exact ⟨k, List.mem_append_left _ hk, hm.same_trans n k hmn hnk⟩

omit hb in
/-- What equals a member of a type equals a member of every type that equals the type. -/
theorem among_of_same {a' : Ty} (ha' : a'.WellFormed) (hva : a.isInvalid = false) (h : a.Same a')
    {m : Ty} (hm : m.WellFormed) (hmem : m.Among a.each) : m.Among a'.each := by
  obtain ⟨n, hn, hmn⟩ := hmem
  have hva' : a'.isInvalid = false := (isInvalid_of_same h).symm.trans hva
  obtain ⟨k, hk, hnk⟩ := ((same_iff_each ha ha' hva hva').mp h).2 n hn
  exact ⟨k, hk, hm.same_trans n k hmn hnk⟩

/-- Joins of equal types are equal. -/
theorem join_same {a' b' : Ty} (ha' : a'.WellFormed) (hb' : b'.WellFormed) (haa' : a.Same a')
    (hbb' : b.Same b') : (a.join b).Same (a'.join b') := by
  have hva' := isInvalid_of_same haa'
  have hvb' := isInvalid_of_same hbb'
  cases hva : a.isInvalid with
  | true =>
    obtain rfl := eq_of_same haa' hva
    cases hvb : b.isInvalid with
    | true =>
      obtain rfl := eq_of_same hbb' hvb
      exact same_refl _
    | false =>
      rw [hvb] at hvb'
      simpa [Ty.join, hva, hvb, ← hvb'] using hbb'
  | false =>
    rw [hva] at hva'
    cases hvb : b.isInvalid with
    | true =>
      rw [hvb] at hvb'
      simpa [Ty.join, hva, hvb, ← hva', ← hvb'] using haa'
    | false =>
      rw [hvb] at hvb'
      have hjoin := ha.join hb
      have hjoin' := ha'.join hb'
      have hcovers {x y x' y' : Ty} (hx : x.WellFormed) (hy : y.WellFormed) (hx' : x'.WellFormed)
          (hy' : y'.WellFormed) (hvx : x.isInvalid = false) (hvy : y.isInvalid = false)
          (hxx' : x.Same x') (hyy' : y.Same y') :
          ∀ m ∈ (x.join y).each, m.Among (x'.join y').each := by
        intro m hm
        have hmwf := (hx.join hy).each m hm
        have hvx' : x'.isInvalid = false := (isInvalid_of_same hxx').symm.trans hvx
        have hvy' : y'.isInvalid = false := (isInvalid_of_same hyy').symm.trans hvy
        rw [among_join_iff hx' hy' hvx' hvy' hmwf]
        rcases (among_join_iff hx hy hvx hvy hmwf).mp (among_of_mem hm) with h | h
        · exact .inl (among_of_same hx hx' hvx hxx' hmwf h)
        · exact .inr (among_of_same hy hy' hvy hyy' hmwf h)
      exact same_of_among hjoin hjoin' (each_join ha hb hva hvb).2
        (each_join ha' hb' hva'.symm hvb'.symm).2
        (hcovers ha hb ha' hb' hva hvb haa' hbb')
        (hcovers ha' hb' ha hb hva'.symm hvb'.symm (ha.same_symm a' ha' haa')
          (hb.same_symm b' hb' hbb'))

end Ty.WellFormed

/-- Equality of well-formed types is an equivalence, and joins respect it. -/
theorem Ty.WellFormed.same_equivalence :
    Equivalence (fun a b : { ty : Ty // ty.WellFormed } => (a.1 == b.1) = true) ∧
      ∀ a a' b b' : { ty : Ty // ty.WellFormed }, (a.1 == a'.1) = true → (b.1 == b'.1) = true →
        (a.1.join b.1 == a'.1.join b'.1) = true where
  left :=
    { refl := fun a => same_refl a.1
      symm := fun {a b} h => a.2.same_symm b.1 b.2 h
      trans := fun {a b c} h h' => a.2.same_trans b.1 c.1 h h' }
  right := fun a a' b b' h h' => join_same a.2 b.2 a'.2 b'.2 h h'

/-- An array of one union, whose members stand in either order. -/
theorem Ty.WellFormed.same_equivalence_swapped :
    let a : Ty := .array (.union [.number, .string])
    let a' : Ty := .array (.union [.string, .number])
    (a == a') = true ∧ (a.join .nil == a'.join .nil) = true := by
  exact ⟨rfl, same_equivalence.2
    ⟨_, .array (.pair (.prim .number) (.prim .string) rfl)⟩
    ⟨_, .array (.pair (.prim .string) (.prim .number) rfl)⟩
    ⟨_, .prim .nil⟩ ⟨_, .prim .nil⟩ rfl rfl⟩

/-! The laws of joining. -/

namespace Ty

theorem join_self (a : Ty) : a.join a = a := by
  have hsame : (a == a) = true := same_refl a
  cases a with
  | unknown | invalid => rfl
  | _ => exact if_pos hsame

theorem join_of_isInvalid_left {a b : Ty} (ha : a.isInvalid = true) (hb : b.isInvalid = false) :
    a.join b = b := by
  rw [join, ha, hb]

theorem join_of_isInvalid_right {a b : Ty} (ha : a.isInvalid = false) (hb : b.isInvalid = true) :
    a.join b = a := by
  rw [join, ha, hb]

/-- Two sentinels are invalid only if both are. -/
theorem join_of_isInvalid {a b : Ty} (ha : a.isInvalid = true) (hb : b.isInvalid = true) :
    a.join b = if a.isUnknown || b.isUnknown then .unknown else .invalid := by
  rw [join, ha, hb]

theorem isInvalid_join_of_isInvalid {a b : Ty} (ha : a.isInvalid = true) (hb : b.isInvalid = true) :
    (a.join b).isInvalid = true := by
  rw [join_of_isInvalid ha hb]
  split <;> rfl

theorem join_comm_of_isInvalid {a b : Ty} (ha : a.isInvalid = true) (hb : b.isInvalid = true) :
    a.join b = b.join a := by
  rw [join_of_isInvalid ha hb, join_of_isInvalid hb ha, Bool.or_comm]

theorem join_assoc_of_isInvalid {a b c : Ty} (ha : a.isInvalid = true) (hb : b.isInvalid = true)
    (hc : c.isInvalid = true) : (a.join b).join c = a.join (b.join c) := by
  cases a with
  | unknown | invalid =>
    cases b with
    | unknown | invalid =>
      cases c with
      | unknown | invalid => rfl
      | _ => cases hc
    | _ => cases hb
  | _ => cases ha

namespace WellFormed

variable {a b c : Ty} (ha : a.WellFormed) (hb : b.WellFormed) (hc : c.WellFormed)

include ha hb

theorem join_comm : (a.join b).Same (b.join a) := by
  cases hva : a.isInvalid with
  | true =>
    cases hvb : b.isInvalid with
    | true =>
      rw [join_comm_of_isInvalid hva hvb]
      exact same_refl _
    | false =>
      rw [join_of_isInvalid_left hva hvb, join_of_isInvalid_right hvb hva]
      exact same_refl b
  | false =>
    cases hvb : b.isInvalid with
    | true =>
      rw [join_of_isInvalid_right hva hvb, join_of_isInvalid_left hvb hva]
      exact same_refl a
    | false =>
      have hcovers {x y : Ty} (hx : x.WellFormed) (hy : y.WellFormed) (hvx : x.isInvalid = false)
          (hvy : y.isInvalid = false) : ∀ m ∈ (x.join y).each, m.Among (y.join x).each := by
        intro m hm
        have hmwf := (hx.join hy).each m hm
        rw [among_join_iff hy hx hvy hvx hmwf, or_comm, ← among_join_iff hx hy hvx hvy hmwf]
        exact among_of_mem hm
      exact same_of_among (ha.join hb) (hb.join ha) (each_join ha hb hva hvb).2
        (each_join hb ha hvb hva).2 (hcovers ha hb hva hvb) (hcovers hb ha hvb hva)

include hc

theorem join_assoc : ((a.join b).join c).Same (a.join (b.join c)) := by
  cases hvb : b.isInvalid with
  | true =>
    -- A sentinel in the middle gives way to either side, unless all three are sentinels.
    cases hva : a.isInvalid with
    | true =>
      cases hvc : c.isInvalid with
      | true =>
        rw [join_assoc_of_isInvalid hva hvb hvc]
        exact same_refl _
      | false =>
        rw [join_of_isInvalid_left (isInvalid_join_of_isInvalid hva hvb) hvc,
          join_of_isInvalid_left hvb hvc, join_of_isInvalid_left hva hvc]
        exact same_refl c
    | false =>
      rw [join_of_isInvalid_right hva hvb]
      cases hvc : c.isInvalid with
      | true =>
        rw [join_of_isInvalid_right hva hvc,
          join_of_isInvalid_right hva (isInvalid_join_of_isInvalid hvb hvc)]
        exact same_refl a
      | false =>
        rw [join_of_isInvalid_left hvb hvc]
        exact same_refl _
  | false =>
    cases hva : a.isInvalid with
    | true =>
      rw [join_of_isInvalid_left hva hvb]
      cases hvc : c.isInvalid with
      | true =>
        rw [join_of_isInvalid_right hvb hvc, join_of_isInvalid_left hva hvb]
        exact same_refl b
      | false =>
        rw [join_of_isInvalid_left hva (each_join hb hc hvb hvc).2]
        exact same_refl _
    | false =>
      have hvab := (each_join ha hb hva hvb).2
      cases hvc : c.isInvalid with
      | true =>
        rw [join_of_isInvalid_right hvab hvc, join_of_isInvalid_right hvb hvc]
        exact same_refl _
      | false =>
        have hvbc := (each_join hb hc hvb hvc).2
        have hab := ha.join hb
        have hbc := hb.join hc
        have hmembers {m : Ty} (hm : m.WellFormed) :
            m.Among ((a.join b).join c).each ↔ m.Among (a.join (b.join c)).each := by
          rw [among_join_iff hab hc hvab hvc hm, among_join_iff ha hb hva hvb hm, or_assoc,
            ← among_join_iff hb hc hvb hvc hm, ← among_join_iff ha hbc hva hvbc hm]
        have hleft := hab.join hc
        have hright := ha.join hbc
        exact same_of_among hleft hright (each_join hab hc hvab hvc).2
          (each_join ha hbc hva hvbc).2
          (fun m hm => (hmembers (hleft.each m hm)).mp (among_of_mem hm))
          (fun m hm => (hmembers (hright.each m hm)).mpr (among_of_mem hm))

end WellFormed

end Ty

/-- Joining is idempotent, commutative and associative up to equality. A sentinel gives way to any
other type, the invalid type gives way to the unknown one, and other types have as the members of
their join those of the first in their order, followed by those of the second that equal none of
them. -/
theorem Ty.WellFormed.join_laws {a b c : Ty} (ha : a.WellFormed) (hb : b.WellFormed)
    (hc : c.WellFormed) :
    (a.join a == a) = true ∧ (a.join b == b.join a) = true ∧
    ((a.join b).join c == a.join (b.join c)) = true ∧
    (a.isInvalid = false → ∀ s ∈ [Ty.unknown, .invalid], a.join s = a ∧ s.join a = a) ∧
    Ty.invalid.join .unknown = .unknown ∧ Ty.unknown.join .invalid = .unknown ∧
    (a.isInvalid = false → b.isInvalid = false →
      (a.join b).isInvalid = false ∧
        (a.join b).each = a.each ++ b.each.filter fun m => !a.each.any (· == m)) := by
  refine ⟨?_, ha.join_comm hb, ha.join_assoc hb hc, fun hva s hs => ?_, rfl, rfl,
    fun hva hvb => (each_join ha hb hva hvb).symm⟩
  · rw [join_self]
    exact same_refl a
  · have hvs : s.isInvalid = true := by
      rcases List.mem_pair.mp hs with rfl | rfl <;> rfl
    exact ⟨join_of_isInvalid_right hva hvs, join_of_isInvalid_left hvs hva⟩

/-- Two unions that share a member, and a sentinel. -/
theorem Ty.WellFormed.join_laws_overlapping :
    let a : Ty := .union [.number, .string]
    let b : Ty := .union [.nil, .number]
    (a.join b == b.join a) = true ∧ a.join .unknown = a ∧
      (a.join b).each = [.number, .string, .nil] := by
  have hlaws := join_laws (.pair (.prim .number) (.prim .string) rfl)
    (.pair (.prim .nil) (.prim .number) rfl) .invalid
  obtain ⟨-, hcomm, -, hsentinel, -, -, hmembers⟩ := hlaws
  exact ⟨hcomm, (hsentinel rfl .unknown List.mem_cons_self).1, (hmembers rfl rfl).2⟩

end LuaTypes
