import LuaTypes.Proofs.Inheritance

/-!
The order of subtypes. Among types without sentinels whose classes were met by name, subtyping is
transitive but for one missing rule: an array fits the universal table, and the table fits a generic
type over it, but no array fits a generic type.
-/

namespace LuaTypes

namespace Ty

/-- A well-formed type with no sentinel in it, whose classes were all met by name. -/
structure Definite (ty : Ty) : Prop where
  wellFormed : ty.WellFormed
  metByName : ty.MetByName
  known : ty.Everywhere fun ty => ty.isInvalid = false

/-- What decides for a type in its place: the members of a union and the base of a generic type. -/
def deciding : Ty → List Ty
  | .union members => members
  | .generic base _ => [base]
  | _ => []

/-- Somewhere in the comparison of the three types the first one is an array, the second one the
universal table and the third one a generic type that the table fits. -/
inductive TableGap (r : Resolver) : Ty → Ty → Ty → Prop
  | gap {element base : Ty} {args : List Ty} {table : ClassTy} : table.isUniversalTable = true →
    Sub r (.cls table) base → TableGap r (.array element) (.cls table) (.generic base args)
  | element {x y z : Ty} : TableGap r x y z → TableGap r (.array x) (.array y) (.array z)
  | left {a b c part : Ty} : part ∈ a.deciding → TableGap r part b c → TableGap r a b c
  | middle {a b c part : Ty} : part ∈ b.deciding → TableGap r a part c → TableGap r a b c
  | right {a b c part : Ty} : part ∈ c.deciding → TableGap r a b part → TableGap r a b c

variable {r : Resolver}

namespace Definite

theorem part {ty : Ty} (h : ty.Definite) : ∀ part ∈ ty.parts, part.Definite := fun part hpart =>
  ⟨h.wellFormed.part part hpart, h.metByName.part part hpart, h.known.part part hpart⟩

theorem each {ty : Ty} (h : ty.Definite) : ∀ m ∈ ty.each, m.Definite := fun m hm =>
  ⟨h.wellFormed.each m hm, h.metByName.each m hm, h.known.each m hm⟩

theorem isInvalid {ty : Ty} (h : ty.Definite) : ty.isInvalid = false := h.known.here

theorem base {base : Ty} {args : List Ty} (h : (generic base args).Definite) : base.Definite :=
  h.part base List.mem_cons_self

theorem element {element : Ty} (h : (array element).Definite) : element.Definite :=
  h.part element (List.mem_singleton_self element)

theorem deferred {c : ClassTy} (h : (cls c).Definite) : ∃ cell, c = .deferred c.name cell :=
  h.metByName.here c rfl

theorem ne_literal {c : ClassTy} (h : (cls c).Definite) {file node fieldCount : Nat} :
    c.origin ≠ .literal file node fieldCount := by
  obtain ⟨cell, hcell⟩ := h.deferred
  rw [hcell]
  nofun

theorem flags {c : ClassTy} (h : (cls c).Definite) : c.flags = {} := by
  obtain ⟨cell, hcell⟩ := h.deferred
  rw [hcell]
  rfl

theorem ne_union_of_mem_each {ty m : Ty} (h : ty.Definite) (hm : m ∈ ty.each) :
    ∀ members, m ≠ .union members := by
  rintro members rfl
  cases ty with
  | union own => cases (h.wellFormed.canonical own rfl).2.plain _ hm
  | _ => cases List.mem_singleton.mp hm

end Definite

/-- Only arrays come to the gap. -/
theorem not_tableGap_cls {c : ClassTy} {b d : Ty} : ¬TableGap r (.cls c) b d := by
  intro h
  generalize ha : cls c = a at h
  induction h with
  | gap | element => cases ha
  | left hpart =>
    subst ha
    cases hpart
  | middle _ _ ih | right _ _ ih => exact ih ha

theorem TableGap.each {a b c m : Ty} (hm : m ∈ c.each) (h : TableGap r a b m) :
    TableGap r a b c := by
  cases c with
  | union members => exact .right hm h
  | _ => exact List.mem_singleton.mp hm ▸ h

/-- Equal types fit where the other one fits. -/
theorem Sub.of_same_left {a b c : Ty} (ha : a.Definite) (hb : b.Definite) (hc : c.Definite)
    (hab : a.Same b) (hbc : Sub r b c) : Sub r a c :=
  hbc.congr hb.wellFormed hc.wellFormed ha.wellFormed hc.wellFormed hb.metByName ha.metByName
    (ha.wellFormed.same_symm b hb.wellFormed hab) (same_refl c)

theorem Sub.of_same_right {a b c : Ty} (ha : a.Definite) (hb : b.Definite) (hc : c.Definite)
    (hab : Sub r a b) (hbc : b.Same c) : Sub r a c :=
  hab.congr ha.wellFormed hb.wellFormed ha.wellFormed hc.wellFormed ha.metByName ha.metByName
    (same_refl a) hbc

/-- For types that are no unions, it is enough to look at supertypes that are no unions either, and
that their forms decide on. -/
theorem Sub.trans_of_each {a b c : Ty} (ha : a.Definite) (hb : b.Definite) (hc : c.Definite)
    (haUnion : ∀ members, a ≠ .union members) (hbUnion : ∀ members, b ≠ .union members)
    (hab : Sub r a b) (hbc : Sub r b c)
    (h : ∀ n ∈ c.each, (∀ members, n ≠ .union members) → b.Apart n → Sub r b n → Sub r a n) :
    Sub r a c := by
  obtain ⟨n, hn, hbn⟩ := (WellFormed.sub_iff_exists_each hbUnion hc.wellFormed).mp hbc
  refine (WellFormed.sub_iff_exists_each haUnion hc.wellFormed).mpr ⟨n, hn, ?_⟩
  have hdefinite := hc.each n hn
  by_cases hsame : b.Same n
  · exact hab.of_same_right ha hb hdefinite hsame
  · exact h n hn (hc.ne_union_of_mem_each hn) ⟨hsame, hb.isInvalid, hdefinite.isInvalid⟩ hbn

/-- The superclasses of a superclass are superclasses, but for a class in a cycle itself. -/
theorem inherits_trans (h : r.Hierarchical) {c d e : ClassTy} (hc : (cls c).Definite)
    (hd : (cls d).Definite) (he : (cls e).Definite) (hcd : c.Inherits r d) (hde : d.Inherits r e) :
    (cls c).Same (cls e) ∨ c.Inherits r e := by
  obtain ⟨hon, -, hlower⟩ := (ClassTy.inherits_iff h hc.metByName hd.metByName).mp hcd
  obtain ⟨-, -, hupper⟩ := (ClassTy.inherits_iff h hd.metByName he.metByName).mp hde
  by_cases hname : e.name = c.name
  · exact .inl ((same_cls_iff c e).mpr ⟨hname.symm, by rw [hc.flags, he.flags]⟩)
  · exact .inr ((ClassTy.inherits_iff h hc.metByName he.metByName).mpr
      ⟨hon, hname, hlower.trans hupper⟩)

/-- Nothing is above the universal table. -/
theorem not_inherits_of_isUniversalTable (h : r.Hierarchical) {c d : ClassTy}
    (hc : (cls c).Definite) (htable : c.isUniversalTable = true) : ¬c.Inherits r d := by
  obtain ⟨cell, hcell⟩ := hc.deferred
  have hname : c.name = tableWord := by
    simp only [ClassTy.isUniversalTable, Bool.and_eq_true, beq_iff_eq] at htable
    exact htable.1
  have hnone : c.ancestorsBy r = [] := by
    rw [hcell, hname]
    change ancestorsFrom r [tableWord] (r.supersOf tableWord) = []
    rw [h.supersOf_tableWord, ancestorsFrom]
  rintro ⟨-, e, he, -⟩
  simp [hnone] at he

/-- A class fits where a class above it fits. -/
theorem Sub.trans_cls (h : r.Hierarchical) {d e : ClassTy} {c : Ty} (hd : (cls d).Definite)
    (he : (cls e).Definite) (hc : c.Definite) (hde : Sub r (.cls d) (.cls e))
    (hec : Sub r (.cls e) c) : Sub r (.cls d) c := by
  generalize heq : cls e = b at hec
  induction hec with
  | same hsame =>
    subst heq
    exact hde.of_same_right hd he hc hsame
  | fromSentinel hinvalid =>
    subst heq
    cases hinvalid
  | toSentinel hinvalid => simp [hc.isInvalid] at hinvalid
  | member hunion hm _ ih => exact .member nofun hm (ih (hc.part _ hm) heq)
  | table htable => exact .table htable
  | inherits hinherits =>
    obtain rfl := cls.inj heq
    cases hde with
    | same hsame =>
      exact .inherits (inherits_of_same he.metByName hd.metByName
        (hd.wellFormed.same_symm _ he.wellFormed hsame) (same_refl _) hinherits)
    | fromSentinel hinvalid | toSentinel hinvalid => cases hinvalid
    | table htable => exact absurd hinherits (not_inherits_of_isUniversalTable h he htable)
    | inherits hlower => exact (inherits_trans h hd he hc hlower hinherits).elim .same .inherits
  | emptyLiteral horigin =>
    obtain rfl := cls.inj heq
    exact absurd horigin he.ne_literal
  | base _ ih => exact .base (ih hc.base heq)
  | union | generic | arrayTable | element | func => cases heq

/-- Subtyping is transitive wherever the missing rule does not come in. -/
theorem Sub.trans (h : r.Hierarchical) {a b c : Ty} (ha : a.Definite) (hb : b.Definite)
    (hc : c.Definite) (hab : Sub r a b) (hbc : Sub r b c) (hgap : ¬TableGap r a b c) :
    Sub r a c := by
  -- By the rule that the first comparison ends with. The last type may lose members on the way, so
  -- it is not fixed.
  induction hab generalizing c with
  | same hsame => exact hbc.of_same_left ha hb hc hsame
  | fromSentinel hinvalid => simp [ha.isInvalid] at hinvalid
  | toSentinel hinvalid => simp [hb.isInvalid] at hinvalid
  | union _ ih =>
    exact .union fun m hm => ih m hm (ha.part m hm) hb hc hbc fun hg => hgap (.left hm hg)
  | member hunion hm _ ih =>
    have hmc := (hb.wellFormed.sub_iff_each hc.wellFormed).mp hbc _ hm
    exact ih ha (hb.part _ hm) hc hmc fun hg => hgap (.middle hm hg)
  | @generic base b args hunion hsub ih =>
    refine trans_of_each ha hb hc nofun hunion (.generic hunion hsub) hbc
      fun n hn hnUnion _ hbn => ?_
    refine .generic hnUnion (ih ha.base hb (hc.each n hn) hbn fun hg => ?_)
    exact hgap (.each hn (.left (List.mem_singleton_self base) hg))
  | table htable => exact trans_cls h ha hb hc (.table htable) hbc
  | inherits hinherits => exact trans_cls h ha hb hc (.inherits hinherits) hbc
  | emptyLiteral horigin => exact absurd horigin ha.ne_literal
  | arrayTable htable =>
    refine trans_of_each ha hb hc nofun nofun (.arrayTable htable) hbc
      fun n hn hnUnion hfar hbn => ?_
    cases hbn with
    | same hsame => exact absurd hsame hfar.ne
    | fromSentinel hinvalid | toSentinel hinvalid => simp [hfar.left, hfar.right] at hinvalid
    | member => exact absurd rfl (hnUnion _)
    | table htable' => exact .arrayTable htable'
    | inherits hinherits => exact absurd hinherits (not_inherits_of_isUniversalTable h hb htable)
    | emptyLiteral horigin => exact absurd horigin hb.ne_literal
    | base hbase => exact absurd (.each hn (.gap htable hbase)) hgap
  | @base d base args hsub ih =>
    refine trans_of_each ha hb hc nofun nofun (.base hsub) hbc fun n hn hnUnion hfar hbn => ?_
    refine ih ha hb.base (hc.each n hn) ((hfar.sub_generic_iff hnUnion).mp hbn) fun hg => ?_
    exact hgap (.each hn (.middle (List.mem_singleton_self base) hg))
  | element hsub ih =>
    refine trans_of_each ha hb hc nofun nofun (.element hsub) hbc fun n hn hnUnion hfar hbn => ?_
    cases hbn with
    | same hsame => exact absurd hsame hfar.ne
    | fromSentinel hinvalid | toSentinel hinvalid => simp [hfar.left, hfar.right] at hinvalid
    | member => exact absurd rfl (hnUnion _)
    | arrayTable htable => exact .arrayTable htable
    | element hupper =>
      refine .element (ih ha.element hb.element (hc.each _ hn).element hupper fun hg => ?_)
      exact hgap (.each hn (.element hg))
  | func =>
    refine trans_of_each ha hb hc nofun nofun .func hbc fun n hn hnUnion hfar hbn => ?_
    cases hbn with
    | same hsame => exact absurd hsame hfar.ne
    | fromSentinel hinvalid | toSentinel hinvalid => simp [hfar.left, hfar.right] at hinvalid
    | member => exact absurd rfl (hnUnion _)
    | func => exact .func

/-- There is no rule from arrays to generic types. -/
theorem not_sub_array_generic {element base : Ty} {args : List Ty} :
    ¬Sub r (.array element) (.generic base args) := by
  intro h
  cases h with
  | same hsame => cases hsame
  | fromSentinel hinvalid | toSentinel hinvalid => cases hinvalid

/-- Among types without sentinels whose classes were met by name, every type fits itself, and
subtyping is transitive unless an array, the universal table and a generic type over it meet: there
the two comparisons hold and the third one never does. -/
theorem Definite.subtype_order (hready : r.ready = true) (h : r.Hierarchical) :
    let sub (x y : Ty) : Bool := (x.subtype r y {}).1
    (∀ a : Ty, sub a a = true) ∧
    (∀ a b c : Ty, a.Definite → b.Definite → c.Definite → sub a b = true → sub b c = true →
      ¬TableGap r a b c → sub a c = true) ∧
    ∀ (element base : Ty) (args : List Ty) (table : ClassTy), table.isUniversalTable = true →
      sub (.cls table) base = true →
      sub (.array element) (.cls table) = true ∧ sub (.cls table) (.generic base args) = true ∧
      sub (.array element) (.generic base args) = false := by
  intro sub
  have hsub (x y : Ty) : sub x y = true ↔ Sub r x y :=
    subtype_iff hready (ClassMemo.agrees_empty r) x y
  refine ⟨fun a => ?_, fun a b c ha hb hc hab hbc hgap => ?_,
    fun element base args table htable hbase => ⟨?_, ?_, ?_⟩⟩
  · exact (hsub a a).mpr (.same (same_refl a))
  · rw [hsub] at hab hbc ⊢
    exact hab.trans h ha hb hc hbc hgap
  · exact (hsub _ _).mpr (.arrayTable htable)
  · exact (hsub _ _).mpr (.base ((hsub _ _).mp hbase))
  · exact Bool.eq_false_iff.mpr fun hfits => not_sub_array_generic ((hsub _ _).mp hfits)

namespace Definite

theorem deferred_cls (name : String) (cell : Nat) : Definite (.cls (.deferred name cell)) where
  wellFormed := .cls_of_docFields rfl
  metByName := .deferred name cell
  known := .intro rfl nofun

/-- A type other than a class is definite if its parts are. -/
theorem of_parts {ty : Ty} (hcanonical : ty.IsCanonical) (hcls : ∀ c, ty ≠ .cls c)
    (hvalid : ty.isInvalid = false) (h : ∀ part ∈ ty.parts, part.Definite) : ty.Definite where
  wellFormed := .intro hcanonical fun part hpart => (h part hpart).wellFormed
  metByName := .intro (fun c heq => absurd heq (hcls c)) fun part hpart => (h part hpart).metByName
  known := .intro hvalid fun part hpart => (h part hpart).known

theorem prim (p : Prim) : Definite (.prim p) := of_parts nofun nofun rfl nofun

/-- Dogs are animals, and animals are among animals and numbers. -/
theorem subtype_order_zoo :
    let dog : Ty := .cls (.deferred "Dog" 0)
    let animal : Ty := .cls (.deferred "Animal" 1)
    let mixed : Ty := .union [animal, .number]
    (dog.subtype .zoo animal {}).1 = true ∧ (animal.subtype .zoo mixed {}).1 = true ∧
    (dog.subtype .zoo mixed {}).1 = true := by
  intro dog animal mixed
  have hanimal : animal.Definite := .deferred_cls "Animal" 1
  have hmixed : mixed.Definite := by
    refine .of_parts ?_ nofun rfl
      (List.forall_mem_cons.mpr ⟨hanimal, List.forall_mem_singleton.mpr (.prim .number)⟩)
    exact (WellFormed.pair hanimal.wellFormed (.prim .number) rfl).canonical
  have hzoo : Resolver.zoo.Hierarchical := by
    refine .of_supers {"Animal"} (by decide) nofun fun name details hdetails => ?_
    simp only [Resolver.zoo] at hdetails
    split at hdetails
    · obtain rfl := Option.some_inj.mp hdetails
      simp
    · split at hdetails
      · obtain rfl := Option.some_inj.mp hdetails
        nofun
      · cases hdetails
  have hsub (x y : Ty) : (x.subtype .zoo y {}).1 = true ↔ Sub .zoo x y :=
    subtype_iff rfl (ClassMemo.agrees_empty _) x y
  have hdog : (dog.subtype .zoo animal {}).1 = true := by
    have hsuper : Resolver.zoo.Extends "Dog" "Animal" :=
      ⟨.declared "Animal" {}, List.mem_singleton_self _, rfl⟩
    rw [hsub]
    exact .inherits ((ClassTy.inherits_deferred_iff hzoo "Animal" 0 1).mpr
      ⟨rfl, by decide, .single hsuper⟩)
  have hmember : (animal.subtype .zoo mixed {}).1 = true :=
    (hsub _ _).mpr (.member nofun List.mem_cons_self (.same (same_refl animal)))
  exact ⟨hdog, hmember, (subtype_order (r := .zoo) rfl hzoo).2.1 dog animal mixed
    (.deferred_cls "Dog" 0) hanimal hmixed hdog hmember not_tableGap_cls⟩

/-- No class is declared, and still the table is between the arrays and a generic type. -/
theorem subtype_not_transitive :
    let numbers : Ty := .array .number
    let table : Ty := .cls (.deferred tableWord 0)
    let keyed : Ty := .generic table [.number]
    let sub (x y : Ty) : Bool := (x.subtype .empty y {}).1
    Resolver.empty.ready = true ∧ Resolver.empty.Hierarchical ∧
    numbers.Definite ∧ table.Definite ∧ keyed.Definite ∧
    sub numbers table = true ∧ sub table keyed = true ∧ sub numbers keyed = false := by
  intro numbers table keyed sub
  have htable : table.Definite := .deferred_cls tableWord 0
  have hsub (x y : Ty) : sub x y = true ↔ Sub .empty x y :=
    subtype_iff rfl (ClassMemo.agrees_empty _) x y
  refine ⟨rfl, .of_supers ∅ (by decide) nofun nofun, ?_, htable, ?_, ?_, ?_, ?_⟩
  · exact .of_parts nofun nofun rfl (List.forall_mem_singleton.mpr (.prim .number))
  · exact .of_parts nofun nofun rfl
      (List.forall_mem_cons.mpr ⟨htable, List.forall_mem_singleton.mpr (.prim .number)⟩)
  · exact (hsub _ _).mpr (.arrayTable rfl)
  · exact (hsub _ _).mpr (.base (.same (same_refl table)))
  · exact Bool.eq_false_iff.mpr fun hfits => not_sub_array_generic ((hsub _ _).mp hfits)

end Definite

end Ty

end LuaTypes
