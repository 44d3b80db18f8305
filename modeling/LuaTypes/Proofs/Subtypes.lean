import LuaTypes.Proofs.Independence
import LuaTypes.Proofs.Joins
import LuaTypes.Ty.Subtype

/-!
The subtype relation by its rules. A check reads class details and notes them in the memo, but its
answer does not hang on what was noted before: it is whether the rules lead from the one type to
the other.
-/

namespace LuaTypes

/-- Wherever the memo holds only what the resolver says, the reading gives the value and leaves the
memo like that. -/
def Reading.Gives (r : Resolver) {α : Type} (m : Reading α) (a : α) : Prop :=
  ∀ memo : ClassMemo, memo.Agrees r → (m memo).1 = a ∧ (m memo).2.Agrees r

namespace Reading.Gives

variable {r : Resolver} {α β : Type}

theorem pure (a : α) : Gives r (Pure.pure a) a := fun _ h => ⟨rfl, h⟩

theorem bind {m : Reading α} {f : α → Reading β} {a : α} {b : β} (hm : Gives r m a)
    (hf : Gives r (f a) b) : Gives r (m >>= f) b := by
  intro memo hmemo
  obtain ⟨ha, hnext⟩ := hm memo hmemo
  have hrun : (m >>= f) memo = f (m memo).1 (m memo).2 := rfl
  rw [hrun, ha]
  exact hf _ hnext

theorem readDetails (h : r.ready = true) (c : ClassTy) :
    Gives r (c.readDetails r) (c.detailsBy r) := fun _ hmemo =>
  ⟨(c.readDetails_agrees h hmemo).1, (c.readDetails_agrees h hmemo).2.2⟩

end Reading.Gives

namespace ClassTy

/-- The proper superclasses of a class, as the resolver declares them. -/
def ancestorsBy (r : Resolver) (c : ClassTy) : List ClassTy :=
  ancestorsFrom r [c.name] (r.superClasses (c.detailsBy r))

/-- The target is a proper superclass of the class. Walks that are cancelled find none. -/
def Inherits (r : Resolver) (c target : ClassTy) : Prop :=
  r.cancelled = false ∧ ∃ d ∈ c.ancestorsBy r, (d == target) = true

theorem inherits_gives {r : Resolver} (h : r.ready = true) (c target : ClassTy) :
    ∃ answer, Reading.Gives r (c.inherits r target) answer ∧
      (answer = true ↔ c.Inherits r target) := by
  refine ⟨!r.cancelled && (c.ancestorsBy r).any (· == target), ?_, ?_⟩
  · exact .bind (.bind (.readDetails h c) (.pure _)) (.pure _)
  · simp [Inherits]

end ClassTy

namespace Ty

/-- The rules of subtyping. A union on the left goes before one on the right, and that before a
generic type on the left. -/
inductive Sub (r : Resolver) : Ty → Ty → Prop
  | same {a b : Ty} : a.Same b → Sub r a b
  | fromSentinel {a b : Ty} : a.isInvalid = true → Sub r a b
  | toSentinel {a b : Ty} : b.isInvalid = true → Sub r a b
  | union {members : List Ty} {b : Ty} : (∀ m ∈ members, Sub r m b) → Sub r (.union members) b
  | member {a m : Ty} {members : List Ty} : (∀ own, a ≠ .union own) → m ∈ members → Sub r a m →
    Sub r a (.union members)
  | generic {base b : Ty} {args : List Ty} : (∀ members, b ≠ .union members) → Sub r base b →
    Sub r (.generic base args) b
  | table {c target : ClassTy} : target.isUniversalTable = true → Sub r (.cls c) (.cls target)
  | arrayTable {element : Ty} {target : ClassTy} : target.isUniversalTable = true →
    Sub r (.array element) (.cls target)
  | inherits {c target : ClassTy} : c.Inherits r target → Sub r (.cls c) (.cls target)
  | emptyLiteral {c : ClassTy} {element : Ty} {file node : Nat} :
    c.origin = .literal file node 0 → Sub r (.cls c) (.array element)
  | base {c : ClassTy} {base : Ty} {args : List Ty} : Sub r (.cls c) base →
    Sub r (.cls c) (.generic base args)
  | element {x y : Ty} : Sub r x y → Sub r (.array x) (.array y)
  | func {main main' : Signature} {overloads overloads' : List Signature} :
    Sub r (.func main overloads) (.func main' overloads')

/-- Neither equal nor a sentinel, so that it is for the forms of the types to decide. -/
structure Apart (a b : Ty) : Prop where
  ne : ¬a.Same b
  left : a.isInvalid = false
  right : b.isInvalid = false

theorem apart_iff {a b : Ty} : ¬(a == b || a.isInvalid || b.isInvalid) = true ↔ a.Apart b := by
  have hsame : (a == b) = a.same b := rfl
  rw [hsame]
  constructor
  · intro h
    simp only [Bool.or_eq_true, not_or, Bool.not_eq_true] at h
    exact ⟨by simpa [Ty.Same] using h.1.1, h.1.2, h.2⟩
  · rintro ⟨hne, ha, hb⟩
    simp only [Ty.Same, Bool.not_eq_true] at hne
    simp [hne, ha, hb]

variable {r : Resolver}

/-! One rule for each pair of forms. -/

theorem Apart.sub_union_iff {members : List Ty} {b : Ty} (h : (union members).Apart b) :
    Sub r (.union members) b ↔ ∀ m ∈ members, Sub r m b := by
  refine ⟨fun hsub => ?_, .union⟩
  cases hsub with
  | same hsame => exact absurd hsame h.ne
  | fromSentinel ha => cases ha
  | toSentinel hb => simp [h.right] at hb
  | union hall => exact hall
  | member hown => exact absurd rfl (hown _)

theorem Apart.sub_member_iff {a : Ty} {members : List Ty} (hunion : ∀ own, a ≠ .union own)
    (h : a.Apart (union members)) : Sub r a (.union members) ↔ ∃ m ∈ members, Sub r a m := by
  refine ⟨fun hsub => ?_, fun ⟨m, hm, hsub⟩ => .member hunion hm hsub⟩
  cases hsub with
  | same hsame => exact absurd hsame h.ne
  | fromSentinel ha => simp [h.left] at ha
  | toSentinel hb => cases hb
  | union => exact absurd rfl (hunion _)
  | member _ hm hsub => exact ⟨_, hm, hsub⟩
  | generic hb => exact absurd rfl (hb _)

theorem Apart.sub_generic_iff {base b : Ty} {args : List Ty}
    (hunion : ∀ members, b ≠ .union members) (h : (generic base args).Apart b) :
    Sub r (.generic base args) b ↔ Sub r base b := by
  refine ⟨fun hsub => ?_, .generic hunion⟩
  cases hsub with
  | same hsame => exact absurd hsame h.ne
  | fromSentinel ha => cases ha
  | toSentinel hb => simp [h.right] at hb
  | member => exact absurd rfl (hunion _)
  | generic _ hbase => exact hbase

theorem Apart.sub_cls_iff {c target : ClassTy} (h : (cls c).Apart (cls target)) :
    Sub r (.cls c) (.cls target) ↔ target.isUniversalTable = true ∨ c.Inherits r target := by
  refine ⟨fun hsub => ?_, fun hsub => hsub.elim .table .inherits⟩
  cases hsub with
  | same hsame => exact absurd hsame h.ne
  | fromSentinel ha => cases ha
  | toSentinel hb => cases hb
  | table htable => exact .inl htable
  | inherits hinherits => exact .inr hinherits

theorem sub_array_cls_iff {element : Ty} {target : ClassTy} :
    Sub r (.array element) (.cls target) ↔ target.isUniversalTable = true := by
  refine ⟨fun hsub => ?_, .arrayTable⟩
  cases hsub with
  | same hsame => cases hsame
  | fromSentinel ha => cases ha
  | toSentinel hb => cases hb
  | arrayTable htable => exact htable

theorem sub_cls_array_iff {c : ClassTy} {element : Ty} :
    Sub r (.cls c) (.array element) ↔ ∃ file node, c.origin = .literal file node 0 := by
  refine ⟨fun hsub => ?_, fun ⟨_, _, h⟩ => .emptyLiteral h⟩
  cases hsub with
  | same hsame => cases hsame
  | fromSentinel ha => cases ha
  | toSentinel hb => cases hb
  | emptyLiteral horigin => exact ⟨_, _, horigin⟩

theorem sub_cls_generic_iff {c : ClassTy} {base : Ty} {args : List Ty} :
    Sub r (.cls c) (.generic base args) ↔ Sub r (.cls c) base := by
  refine ⟨fun hsub => ?_, .base⟩
  cases hsub with
  | same hsame => cases hsame
  | fromSentinel ha => cases ha
  | toSentinel hb => cases hb
  | base hbase => exact hbase

theorem Apart.sub_element_iff {x y : Ty} (h : (array x).Apart (array y)) :
    Sub r (.array x) (.array y) ↔ Sub r x y := by
  refine ⟨fun hsub => ?_, .element⟩
  cases hsub with
  | same hsame => exact absurd hsame h.ne
  | fromSentinel ha => cases ha
  | toSentinel hb => cases hb
  | element hsub => exact hsub

/-- A check answers whether the rules lead from the one type to the other. -/
theorem subtype_gives (h : r.ready = true) (a b : Ty) :
    ∃ answer, Reading.Gives r (a.subtype r b) answer ∧ (answer = true ↔ Sub r a b) := by
  induction a, b using fun motive => Ty.subtype.induct motive
    (fun a bs => ∃ answer, Reading.Gives r (Ty.subtypeAny r a bs) answer ∧
      (answer = true ↔ ∃ b ∈ bs, Sub r a b))
    (fun as b => ∃ answer, Reading.Gives r (Ty.allSubtype r as b) answer ∧
      (answer = true ↔ ∀ a ∈ as, Sub r a b)) with
  | case1 a b hclose =>
    rw [Ty.subtype.eq_def, if_pos hclose]
    refine ⟨true, .pure true, iff_of_true rfl ?_⟩
    simp only [Bool.or_eq_true] at hclose
    rcases hclose with (hsame | ha) | hb
    · exact .same hsame
    · exact .fromSentinel ha
    · exact .toSentinel hb
  | case2 members b hfar ih =>
    obtain ⟨answer, hgives, hanswer⟩ := ih
    rw [Ty.subtype, if_neg hfar]
    exact ⟨answer, hgives, hanswer.trans (apart_iff.mp hfar).sub_union_iff.symm⟩
  | case3 a members hunion hfar ih =>
    obtain ⟨answer, hgives, hanswer⟩ := ih
    rw [Ty.subtype, if_neg hfar]
    · exact ⟨answer, hgives, hanswer.trans ((apart_iff.mp hfar).sub_member_iff hunion).symm⟩
    · exact hunion
  | case4 base args b hunion hfar ih =>
    obtain ⟨answer, hgives, hanswer⟩ := ih
    rw [Ty.subtype, if_neg hfar]
    · exact ⟨answer, hgives, hanswer.trans ((apart_iff.mp hfar).sub_generic_iff hunion).symm⟩
    · exact hunion
  | case5 c target htable hfar =>
    rw [Ty.subtype, if_neg hfar, if_pos htable]
    exact ⟨true, .pure true, iff_of_true rfl (.table htable)⟩
  | case6 c target htable hfar =>
    rw [Ty.subtype, if_neg hfar, if_neg htable]
    obtain ⟨answer, hgives, hanswer⟩ := c.inherits_gives h target
    refine ⟨answer, hgives, hanswer.trans ?_⟩
    rw [(apart_iff.mp hfar).sub_cls_iff, or_iff_right htable]
  | case7 element target hfar =>
    rw [Ty.subtype, if_neg hfar]
    exact ⟨_, .pure _, sub_array_cls_iff.symm⟩
  | case8 c element hfar =>
    rw [Ty.subtype, if_neg hfar]
    refine ⟨_, .pure _, ?_⟩
    rw [sub_cls_array_iff]
    split <;> simp_all
  | case9 c base args hfar ih =>
    obtain ⟨answer, hgives, hanswer⟩ := ih
    rw [Ty.subtype, if_neg hfar]
    exact ⟨answer, hgives, hanswer.trans sub_cls_generic_iff.symm⟩
  | case10 x y hfar ih =>
    obtain ⟨answer, hgives, hanswer⟩ := ih
    rw [Ty.subtype, if_neg hfar]
    exact ⟨answer, hgives, hanswer.trans (apart_iff.mp hfar).sub_element_iff.symm⟩
  | case11 main overloads main' overloads' hfar =>
    rw [Ty.subtype, if_neg hfar]
    exact ⟨true, .pure true, iff_of_true rfl .func⟩
  | case12 a b hfar hleft hgeneric hright hcls htable hliteral hbase helement hfunc =>
    -- No rule is for these forms.
    rw [Ty.subtype, if_neg hfar]
    any_goals assumption
    refine ⟨false, .pure false, iff_of_false Bool.false_ne_true fun hsub => ?_⟩
    obtain ⟨hne, ha, hb⟩ := apart_iff.mp hfar
    cases hsub with
    | same hsame => exact hne hsame
    | fromSentinel h => simp [ha] at h
    | toSentinel h => simp [hb] at h
    | union => exact hleft _ rfl
    | member => exact hright _ rfl
    | generic => exact hgeneric _ _ rfl
    | table | inherits => exact hcls _ _ rfl rfl
    | arrayTable => exact htable _ _ rfl rfl
    | emptyLiteral => exact hliteral _ _ rfl rfl
    | base => exact hbase _ _ _ rfl rfl
    | element => exact helement _ _ rfl rfl
    | func => exact hfunc _ _ _ _ rfl rfl
  | case13 a =>
    rw [Ty.subtypeAny]
    exact ⟨false, .pure false, by simp⟩
  | case14 a b rest ih ihrest =>
    obtain ⟨answer, hgives, hanswer⟩ := ih
    obtain ⟨others, hothers, hrest⟩ := ihrest
    rw [Ty.subtypeAny]
    refine ⟨answer || others, hgives.bind ?_, by simp [hanswer, hrest]⟩
    cases answer with
    | true => exact .pure true
    | false => exact hothers
  | case15 b =>
    rw [Ty.allSubtype]
    exact ⟨true, .pure true, by simp⟩
  | case16 a rest b ih ihrest =>
    obtain ⟨answer, hgives, hanswer⟩ := ih
    obtain ⟨others, hothers, hrest⟩ := ihrest
    rw [Ty.allSubtype]
    refine ⟨answer && others, hgives.bind ?_, by simp [hanswer, hrest]⟩
    cases answer with
    | true => exact hothers
    | false => exact .pure false

/-- From any memo that holds only what the resolver says. -/
theorem subtype_iff (h : r.ready = true) {memo : ClassMemo} (hmemo : memo.Agrees r) (a b : Ty) :
    (a.subtype r b memo).1 = true ↔ Sub r a b := by
  obtain ⟨answer, hgives, hanswer⟩ := subtype_gives h a b
  rw [(hgives memo hmemo).1, hanswer]

theorem agrees_subtype (h : r.ready = true) {memo : ClassMemo} (hmemo : memo.Agrees r) (a b : Ty) :
    (a.subtype r b memo).2.Agrees r := by
  obtain ⟨answer, hgives, -⟩ := subtype_gives h a b
  exact (hgives memo hmemo).2

end Ty

end LuaTypes
