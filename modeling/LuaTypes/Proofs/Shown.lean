import LuaTypes.Proofs.Joins

/-!
Members that types show: those of a type that is no sentinel, up to equality. A join or a union
shows what the types show that it is made of, and types that show the same are equal.
-/

namespace LuaTypes

/-- The type is no sentinel, and equals the other or has a member that does. -/
def Ty.Shows (ty m : Ty) : Prop := ty.isInvalid = false ∧ m.Among ty.each

theorem Ty.shows_cls {c : ClassTy} {m : Ty} : (Ty.cls c).Shows m ↔ m.Same (.cls c) :=
  ⟨fun ⟨_, _, hn, hsame⟩ => List.mem_singleton.mp hn ▸ hsame,
    fun h => ⟨rfl, _, List.mem_singleton_self _, h⟩⟩

theorem Ty.isInvalid_of_mem_each {ty m : Ty} (hm : m ∈ ty.each) (hvalid : m.isInvalid = false) :
    ty.isInvalid = false := by
  cases ty with
  | unknown | invalid =>
    obtain rfl := List.mem_singleton.mp hm
    exact hvalid
  | _ => rfl

theorem Ty.shows_iff_among {ty m : Ty} (hvalid : m.isInvalid = false) :
    ty.Shows m ↔ m.Among ty.each := by
  refine ⟨And.right, fun h => ⟨?_, h⟩⟩
  obtain ⟨n, hn, hsame⟩ := h
  exact Ty.isInvalid_of_mem_each hn ((Ty.isInvalid_of_same hsame).symm.trans hvalid)

namespace Ty.WellFormed

theorem shows_join {a b m : Ty} (ha : a.WellFormed) (hb : b.WellFormed) (hm : m.WellFormed) :
    (a.join b).Shows m ↔ a.Shows m ∨ b.Shows m := by
  cases hva : a.isInvalid with
  | true =>
    cases hvb : b.isInvalid with
    | true => simp [Shows, isInvalid_join_of_isInvalid hva hvb, hva, hvb]
    | false => simp [join_of_isInvalid_left hva hvb, Shows, hva]
  | false =>
    cases hvb : b.isInvalid with
    | true => simp [join_of_isInvalid_right hva hvb, Shows, hvb]
    | false =>
      simp [Shows, (each_join ha hb hva hvb).2, hva, hvb, among_join_iff ha hb hva hvb hm]

theorem shows_of_mem {a m : Ty} (hva : a.isInvalid = false) (hm : m ∈ a.each) : a.Shows m :=
  ⟨hva, among_of_mem hm⟩

/-- A type that is no sentinel equals those that show the same. -/
theorem same_of_shows {a b : Ty} (ha : a.WellFormed) (hb : b.WellFormed)
    (hva : a.isInvalid = false) (h : ∀ m : Ty, m.WellFormed → (a.Shows m ↔ b.Shows m)) :
    a.Same b := by
  obtain ⟨n, hn⟩ := List.exists_mem_of_ne_nil _ ha.each_ne_nil
  have hvb : b.isInvalid = false := ((h n (ha.each n hn)).mp (shows_of_mem hva hn)).1
  refine same_of_among ha hb hva hvb (fun m hm => ?_) fun m hm => ?_
  · exact ((h m (ha.each m hm)).mp (shows_of_mem hva hm)).2
  · exact ((h m (hb.each m hm)).mpr (shows_of_mem hvb hm)).2

/-- A sentinel shows nothing, and any other type shows something. -/
theorem isInvalid_of_shows {a b : Ty} (ha : a.WellFormed) (hb : b.WellFormed)
    (h : ∀ m : Ty, m.WellFormed → (a.Shows m ↔ b.Shows m)) : a.isInvalid = b.isInvalid := by
  cases hva : a.isInvalid with
  | false => rw [← isInvalid_of_same (same_of_shows ha hb hva h), hva]
  | true =>
    cases hvb : b.isInvalid with
    | true => rfl
    | false =>
      have hsame := same_of_shows hb ha hvb fun m hm => (h m hm).symm
      rw [isInvalid_of_same hsame, hva] at hvb
      exact hvb

/-- Equal types show the same. -/
theorem shows_congr {a b m : Ty} (ha : a.WellFormed) (hb : b.WellFormed) (hm : m.WellFormed)
    (hsame : a.Same b) : a.Shows m ↔ b.Shows m := by
  have hvalid := isInvalid_of_same hsame
  constructor
  · exact fun ⟨hva, hmem⟩ => ⟨hvalid ▸ hva, among_of_same ha hb hva hsame hm hmem⟩
  · rintro ⟨hvb, hmem⟩
    have hback := ha.same_symm b hb hsame
    exact ⟨hvalid ▸ hvb, among_of_same hb ha hvb hback hm hmem⟩

end Ty.WellFormed

namespace UnionBuilder

open Ty (WellFormed)

theorem among_add {b : UnionBuilder} (hb : Proper b.members) {ty m : Ty} (hty : ty.WellFormed)
    (hm : m.WellFormed) : m.Among (b.add ty).members ↔ m.Among b.members ∨ ty.Shows m := by
  cases hvalid : ty.isInvalid with
  | true =>
    cases ty with
    | unknown | invalid => simp [add, Ty.Shows, Ty.isInvalid]
    | _ => cases hvalid
  | false =>
    rw [members_add hty hvalid, Ty.Shows, hvalid]
    constructor
    · rintro ⟨n, hn, hmn⟩
      rcases List.mem_append.mp hn with hn | hn
      · exact .inl ⟨n, hn, hmn⟩
      · exact .inr ⟨rfl, n, (List.mem_filter.mp hn).1, hmn⟩
    · rintro (⟨n, hn, hmn⟩ | ⟨-, n, hn, hmn⟩)
      · exact ⟨n, List.mem_append_left _ hn, hmn⟩
      · cases hany : b.members.any (· == n) with
        | false =>
          exact ⟨n, List.mem_append_right _ (List.mem_filter.mpr ⟨hn, by simp [hany]⟩), hmn⟩
        | true =>
          obtain ⟨k, hk, hkn⟩ := List.any_eq_true.mp hany
          have hnk : n.Same k := (hb.wellFormed k hk).same_symm n (hty.each n hn) hkn
          exact ⟨k, List.mem_append_left _ hk, hm.same_trans n k hmn hnk⟩

theorem among_foldl_add {types : List Ty} (h : ∀ ty ∈ types, ty.WellFormed) {m : Ty}
    (hm : m.WellFormed) {b : UnionBuilder} (hb : Proper b.members) :
    m.Among (types.foldl add b).members ↔ m.Among b.members ∨ ∃ ty ∈ types, ty.Shows m := by
  induction types generalizing b with
  | nil => simp
  | cons ty types ih =>
    obtain ⟨hty, htypes⟩ := List.forall_mem_cons.mp h
    rw [List.foldl_cons, ih htypes (hb.add hty), among_add hb hty hm, or_assoc,
      List.exists_mem_cons_iff]

theorem isInvalid_type {b : UnionBuilder} (h : b.members = []) : b.type.isInvalid = true := by
  obtain ⟨members, sawUnknown, sawInvalid⟩ := b
  obtain rfl : members = [] := h
  cases sawUnknown <;> cases sawInvalid <;> rfl

end UnionBuilder

/-- A union shows what the types show of which it is made. -/
theorem Ty.WellFormed.shows_unionAll {types : List Ty} (h : ∀ ty ∈ types, ty.WellFormed) {m : Ty}
    (hm : m.WellFormed) : (Ty.unionAll types).Shows m ↔ ∃ ty ∈ types, ty.Shows m := by
  have hproper := UnionBuilder.Proper.collected h
  have hamong := UnionBuilder.among_foldl_add h hm .nil (b := {})
  have hnone : ¬m.Among (UnionBuilder.members {}) :=
    fun ⟨_, hn, _⟩ => List.not_mem_nil hn
  rw [or_iff_right hnone] at hamong
  rw [← hamong, Ty.unionAll, Ty.Shows]
  by_cases hne : (types.foldl UnionBuilder.add {}).members = []
  · rw [hne, UnionBuilder.isInvalid_type hne]
    exact iff_of_false (fun h => Bool.false_ne_true h.1.symm) hnone
  · obtain ⟨heach, hvalid⟩ := UnionBuilder.each_type hproper hne
    rw [heach, hvalid]
    exact and_iff_right rfl

/-! Unions of equal types. -/

theorem UnionBuilder.foldl_add_of_isInvalid {types : List Ty}
    (h : ∀ ty ∈ types, ty.isInvalid = true) (b : UnionBuilder) :
    types.foldl add b = { b with
      sawUnknown := b.sawUnknown || types.any Ty.isUnknown
      sawInvalid := b.sawInvalid || types.any (!·.isUnknown) } := by
  induction types generalizing b with
  | nil => simp
  | cons ty types ih =>
    obtain ⟨hty, htypes⟩ := List.forall_mem_cons.mp h
    rw [List.foldl_cons, ih htypes]
    cases ty with
    | unknown | invalid => simp [add, Ty.isUnknown]
    | _ => cases hty

/-- A union of sentinels is invalid if there are some and all of them are. -/
theorem Ty.unionAll_of_isInvalid {types : List Ty} (h : ∀ ty ∈ types, ty.isInvalid = true) :
    Ty.unionAll types =
      if types.any (!·.isUnknown) && !types.any Ty.isUnknown then .invalid else .unknown := by
  rw [Ty.unionAll, UnionBuilder.foldl_add_of_isInvalid h, Bool.false_or, Bool.false_or]
  rfl

namespace Ty.WellFormed

variable {types types' : List Ty}

theorem isInvalid_of_unionAll (h : ∀ ty ∈ types, ty.WellFormed)
    (hinvalid : (Ty.unionAll types).isInvalid = true) : ∀ ty ∈ types, ty.isInvalid = true := by
  intro ty hty
  by_contra hvalid
  rw [Bool.not_eq_true] at hvalid
  obtain ⟨m, hm⟩ := List.exists_mem_of_ne_nil _ (h ty hty).each_ne_nil
  have hshows := (shows_unionAll h ((h ty hty).each m hm)).mpr ⟨ty, hty, shows_of_mem hvalid hm⟩
  exact Bool.false_ne_true (hshows.1.symm.trans hinvalid)

theorem shows_of_among (h : ∀ ty ∈ types, ty.WellFormed) (h' : ∀ ty ∈ types', ty.WellFormed)
    (hamong : ∀ ty ∈ types, ty.Among types') {m : Ty} (hm : m.WellFormed)
    (hshows : ∃ ty ∈ types, ty.Shows m) : ∃ ty ∈ types', ty.Shows m := by
  obtain ⟨ty, hty, hshows⟩ := hshows
  obtain ⟨ty', hty', hsame⟩ := hamong ty hty
  exact ⟨ty', hty', (shows_congr (h ty hty) (h' ty' hty') hm hsame).mp hshows⟩

theorem mem_of_among (hinvalid : ∀ ty ∈ types, ty.isInvalid = true)
    (hamong : ∀ ty ∈ types, ty.Among types') : types ⊆ types' := by
  intro ty hty
  obtain ⟨ty', hty', hsame⟩ := hamong ty hty
  exact eq_of_same hsame (hinvalid ty hty) ▸ hty'

/-- Unions are equal if each type of the one has an equal among the types of the other. -/
theorem unionAll_congr (h : ∀ ty ∈ types, ty.WellFormed) (h' : ∀ ty ∈ types', ty.WellFormed)
    (hamong : ∀ ty ∈ types, ty.Among types') (hamong' : ∀ ty ∈ types', ty.Among types) :
    (Ty.unionAll types).Same (Ty.unionAll types') := by
  have hshows (m : Ty) (hm : m.WellFormed) :
      (Ty.unionAll types).Shows m ↔ (Ty.unionAll types').Shows m := by
    rw [shows_unionAll h hm, shows_unionAll h' hm]
    exact ⟨shows_of_among h h' hamong hm, shows_of_among h' h hamong' hm⟩
  cases hvalid : (Ty.unionAll types).isInvalid with
  | false => exact same_of_shows (.unionAll h) (.unionAll h') hvalid hshows
  | true =>
    have hvalid' : (Ty.unionAll types').isInvalid = true :=
      (isInvalid_of_shows (.unionAll h) (.unionAll h') hshows).symm.trans hvalid
    -- Both are made of the same sentinels.
    have hinvalid := isInvalid_of_unionAll h hvalid
    have hinvalid' := isInvalid_of_unionAll h' hvalid'
    have hany (p : Ty → Bool) : types.any p = types'.any p := by
      rw [Bool.eq_iff_iff, List.any_eq_true, List.any_eq_true]
      exact ⟨fun ⟨ty, hty, hp⟩ => ⟨ty, mem_of_among hinvalid hamong hty, hp⟩,
        fun ⟨ty, hty, hp⟩ => ⟨ty, mem_of_among hinvalid' hamong' hty, hp⟩⟩
    rw [unionAll_of_isInvalid hinvalid, unionAll_of_isInvalid hinvalid', hany, hany]
    exact same_refl _

end Ty.WellFormed

end LuaTypes
