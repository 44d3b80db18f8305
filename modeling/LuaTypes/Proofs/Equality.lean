import Mathlib.Data.List.Forall2
import LuaTypes.Proofs.TopClasses
import LuaTypes.Proofs.WellFormed

/-!
Equality of well-formed types is symmetric and transitive. A union equals another of the same length
if it lies in it; that the other then lies in it too holds since no two of its members are equal.
-/

namespace LuaTypes

section

variable {α : Type} {R : α → α → Prop}

/-- Where as many things have partners, and no two have the same one, the partners are all there
is, in another order. -/
theorem exists_perm_forall₂ {as bs : List α} (hlength : as.length = bs.length)
    (hpartner : ∀ b ∈ bs, ∃ a ∈ as, R a b)
    (hown : bs.Pairwise fun b b' => ∀ a ∈ as, R a b → ¬R a b') :
    ∃ cs, as.Perm cs ∧ List.Forall₂ R cs bs := by
  induction bs generalizing as with
  | nil => exact ⟨[], List.eq_nil_of_length_eq_zero hlength ▸ .refl _, .nil⟩
  | cons b bs ih =>
    obtain ⟨a, ha, hab⟩ := hpartner b List.mem_cons_self
    obtain ⟨before, after, rfl⟩ := List.append_of_mem ha
    obtain ⟨hfirst, hown⟩ := List.pairwise_cons.mp hown
    have hsubset : before ++ after ⊆ before ++ a :: after :=
      ((List.sublist_cons_self a after).append_left before).subset
    -- The partners of the others are not that of the first, so they lie in what is left without it.
    have hrest : ∀ b' ∈ bs, ∃ a' ∈ before ++ after, R a' b' := by
      intro b' hb'
      obtain ⟨a', ha', hab'⟩ := hpartner b' (List.mem_cons_of_mem b hb')
      have hne : a' ≠ a := fun heq => hfirst b' hb' a ha hab (heq ▸ hab')
      refine ⟨a', ?_, hab'⟩
      rcases List.mem_append.mp ha' with ha' | ha'
      · exact List.mem_append_left _ ha'
      · exact List.mem_append_right _ ((List.mem_cons.mp ha').resolve_left hne)
    have hlength : (before ++ after).length = bs.length := by
      simp only [List.length_cons, List.length_append] at hlength ⊢
      omega
    obtain ⟨cs, hperm, hcs⟩ := ih hlength hrest (hown.imp fun h c hc => h c (hsubset hc))
    exact ⟨a :: cs, List.perm_middle.trans (hperm.cons a), .cons hab hcs⟩

theorem exists_of_mem_forall₂ {as bs : List α} (h : List.Forall₂ R as bs) :
    ∀ a ∈ as, ∃ b ∈ bs, R a b := by
  induction h with
  | nil => exact List.forall_mem_nil _
  | cons hab _ ih =>
    refine List.forall_mem_cons.mpr ⟨⟨_, List.mem_cons_self, hab⟩, fun a ha => ?_⟩
    obtain ⟨b, hb, hab⟩ := ih a ha
    exact ⟨b, List.mem_cons_of_mem _ hb, hab⟩

/-- Partners in a list of the same length, of which no two things have the same one, are all there
is in that list. -/
theorem exists_partner {as bs : List α} (hlength : as.length = bs.length)
    (hpartner : ∀ a ∈ as, ∃ b ∈ bs, R a b)
    (hown : as.Pairwise fun a a' => ∀ b ∈ bs, R a b → ¬R a' b) : ∀ b ∈ bs, ∃ a ∈ as, R a b := by
  obtain ⟨cs, hperm, hpairs⟩ :=
    exists_perm_forall₂ (R := fun b a => R a b) hlength.symm hpartner hown
  exact fun b hb => exists_of_mem_forall₂ hpairs b (hperm.mem_iff.mp hb)

theorem forall₂_symm {as bs : List α} (h : List.Forall₂ R as bs)
    (hsymm : ∀ a ∈ as, ∀ b ∈ bs, R a b → R b a) : List.Forall₂ R bs as := by
  induction h with
  | nil => exact .nil
  | cons hab _ ih =>
    apply List.Forall₂.cons
    · exact hsymm _ List.mem_cons_self _ List.mem_cons_self hab
    · exact ih fun a ha b hb => hsymm a (List.mem_cons_of_mem _ ha) b (List.mem_cons_of_mem _ hb)

theorem forall₂_trans {as bs cs : List α} (h : List.Forall₂ R as bs) (h' : List.Forall₂ R bs cs)
    (htrans : ∀ a ∈ as, ∀ b c, R a b → R b c → R a c) : List.Forall₂ R as cs := by
  induction h generalizing cs with
  | nil => exact h'
  | cons hab _ ih =>
    cases h' with
    | cons hbc h' =>
      apply List.Forall₂.cons
      · exact htrans _ List.mem_cons_self _ _ hab hbc
      · exact ih h' fun a ha => htrans a (List.mem_cons_of_mem _ ha)

end

/-! Equality, part by part. -/

def Ty.Same (a b : Ty) : Prop := a.same b = true

/-- Two signatures are equal if all is equal that is no type, and the types are equal in pairs. -/
structure Signature.Same (s t : Signature) : Prop where
  colon : s.colon = t.colon
  names : s.params.map (·.name) = t.params.map (·.name)
  typeParams : s.typeParams = t.typeParams
  types : List.Forall₂ Ty.Same s.types t.types

theorem Ty.allIn_iff (as bs : List Ty) :
    Ty.allIn as bs = true ↔ ∀ a ∈ as, ∃ b ∈ bs, a.Same b := by
  induction as with
  | nil => simp [allIn]
  | cons a as ih => simp [allIn, ih, Ty.Same]

theorem Ty.allSame_iff (as bs : List Ty) : Ty.allSame as bs = true ↔ List.Forall₂ Same as bs := by
  induction as generalizing bs with
  | nil => cases bs <;> simp [allSame]
  | cons a as ih => cases bs <;> simp [allSame, ih, Ty.Same]

theorem Field.allSame_iff (ps qs : List Field) :
    Field.allSame ps qs = true ↔
      ps.map (·.name) = qs.map (·.name) ∧ List.Forall₂ Ty.Same (ps.map (·.ty)) (qs.map (·.ty)) := by
  induction ps generalizing qs with
  | nil => cases qs <;> simp [allSame]
  | cons p ps ih =>
    cases qs with
    | nil => simp [allSame]
    | cons q qs =>
      obtain ⟨name, ty⟩ := p
      obtain ⟨name', ty'⟩ := q
      simp only [allSame, Field.same, Bool.and_eq_true, beq_iff_eq, ih, List.map_cons,
        List.cons.injEq, List.forall₂_cons, Ty.Same]
      grind

theorem Ty.sameOption_iff (a? b? : Option Ty) :
    Ty.sameOption a? b? = true ↔ List.Forall₂ Same a?.toList b?.toList := by
  cases a? <;> cases b? <;> simp [sameOption, Ty.Same]

theorem forall₂_append_iff {α : Type} {R : α → α → Prop} {as bs cs ds : List α}
    (h : as.length = cs.length) :
    List.Forall₂ R (as ++ bs) (cs ++ ds) ↔ List.Forall₂ R as cs ∧ List.Forall₂ R bs ds := by
  induction as generalizing cs with
  | nil =>
    obtain rfl := List.eq_nil_of_length_eq_zero h.symm
    simp
  | cons a as ih =>
    cases cs with
    | nil => cases h
    | cons c cs => simp [ih (Nat.succ_inj.mp h), and_assoc]

theorem Signature.same_iff (s t : Signature) : s.same t = true ↔ s.Same t := by
  obtain ⟨colon, ps, v?, r, typeParams⟩ := s
  obtain ⟨colon', qs, w?, q, typeParams'⟩ := t
  simp only [Signature.same, Bool.and_eq_true, beq_iff_eq, Field.allSame_iff, Ty.sameOption_iff]
  constructor
  · rintro ⟨⟨⟨⟨hcolon, hnames, hparams⟩, hvararg⟩, hret⟩, htypeParams⟩
    exact ⟨hcolon, hnames, htypeParams, List.rel_append hparams (.cons hret hvararg)⟩
  · rintro ⟨hcolon, hnames, htypeParams, htypes⟩
    have hlength : (ps.map (·.ty)).length = (qs.map (·.ty)).length := by
      simpa using congrArg List.length hnames
    obtain ⟨hparams, hrest⟩ := (forall₂_append_iff hlength).mp htypes
    obtain ⟨hret, hvararg⟩ := List.forall₂_cons.mp hrest
    exact ⟨⟨⟨⟨hcolon, hnames, hparams⟩, hvararg⟩, hret⟩, htypeParams⟩

theorem Signature.allSame_iff (ss ts : List Signature) :
    Signature.allSame ss ts = true ↔ List.Forall₂ Signature.Same ss ts := by
  induction ss generalizing ts with
  | nil => cases ts <;> simp [allSame]
  | cons s ss ih => cases ts <;> simp [allSame, ih, Signature.same_iff]

namespace Signature.Same

variable {s t u : Signature}

theorem symm (h : s.Same t) (htypes : ∀ a ∈ s.types, ∀ b ∈ t.types, a.Same b → b.Same a) :
    t.Same s where
  colon := h.colon.symm
  names := h.names.symm
  typeParams := h.typeParams.symm
  types := forall₂_symm h.types htypes

theorem trans (h : s.Same t) (h' : t.Same u)
    (htypes : ∀ a ∈ s.types, ∀ b c, a.Same b → b.Same c → a.Same c) : s.Same u where
  colon := h.colon.trans h'.colon
  names := h.names.trans h'.names
  typeParams := h.typeParams.trans h'.typeParams
  types := forall₂_trans h.types h'.types htypes

end Signature.Same

namespace Ty

theorem same_func_iff (main main' : Signature) (overloads overloads' : List Signature) :
    (func main overloads).Same (func main' overloads') ↔
      List.Forall₂ Signature.Same (main :: overloads) (main' :: overloads') := by
  simp [Ty.Same, Ty.same, Signature.same_iff, Signature.allSame_iff]

theorem same_generic_iff (base base' : Ty) (args args' : List Ty) :
    (generic base args).Same (generic base' args') ↔
      List.Forall₂ Ty.Same (base :: args) (base' :: args') := by
  simp [Ty.Same, Ty.same, allSame_iff]

theorem same_union_iff (members members' : List Ty) :
    (union members).Same (union members') ↔
      members.length = members'.length ∧ ∀ m ∈ members, ∃ m' ∈ members', m.Same m' := by
  simp [Ty.Same, Ty.same, allIn_iff]

theorem same_cls_iff (c d : ClassTy) : (cls c).Same (cls d) ↔ c.name = d.name ∧ c.flags = d.flags := by
  simp [Ty.Same, Ty.same, BEq.beq, ClassTy.same]

theorem WellFormed.same_trans {a : Ty} (ha : a.WellFormed) :
    ∀ b c, a.Same b → b.Same c → a.Same c := by
  induction ha with
  | @intro a _ _ ih =>
    intro b c hab hbc
    cases a with
    | unknown =>
      cases b with
      | unknown => exact hbc
      | _ => cases hab
    | invalid =>
      cases b with
      | invalid => exact hbc
      | _ => cases hab
    | prim p =>
      cases b with
      | prim q =>
        obtain rfl : p = q := beq_iff_eq.mp hab
        exact hbc
      | _ => cases hab
    | cls c' =>
      cases b with
      | cls d =>
        cases c with
        | cls e =>
          rw [same_cls_iff] at hab hbc ⊢
          exact ⟨hab.1.trans hbc.1, hab.2.trans hbc.2⟩
        | _ => cases hbc
      | _ => cases hab
    | union members =>
      cases b with
      | union members' =>
        cases c with
        | union members'' =>
          rw [same_union_iff] at hab hbc ⊢
          refine ⟨hab.1.trans hbc.1, fun m hm => ?_⟩
          obtain ⟨m', hm', hsame⟩ := hab.2 m hm
          obtain ⟨m'', hm'', hsame'⟩ := hbc.2 m' hm'
          exact ⟨m'', hm'', ih m hm m' m'' hsame hsame'⟩
        | _ => cases hbc
      | _ => cases hab
    | generic base args =>
      cases b with
      | generic base' args' =>
        cases c with
        | generic base'' args'' =>
          rw [same_generic_iff] at hab hbc ⊢
          exact forall₂_trans hab hbc ih
        | _ => cases hbc
      | _ => cases hab
    | func main overloads =>
      cases b with
      | func main' overloads' =>
        cases c with
        | func main'' overloads'' =>
          rw [same_func_iff] at hab hbc ⊢
          refine forall₂_trans hab hbc fun sig hsig _ _ h h' => h.trans h' fun ty hty => ?_
          exact ih ty (List.mem_flatMap.mpr ⟨sig, hsig, hty⟩)
        | _ => cases hbc
      | _ => cases hab
    | array element =>
      cases b with
      | array element' =>
        cases c with
        | array element'' => exact ih element (List.mem_singleton_self _) element' element'' hab hbc
        | _ => cases hbc
      | _ => cases hab
    | tuple items =>
      cases b with
      | tuple items' =>
        cases c with
        | tuple items'' =>
          exact (allSame_iff items items'').mpr
            (forall₂_trans ((allSame_iff _ _).mp hab) ((allSame_iff _ _).mp hbc) ih)
        | _ => cases hbc
      | _ => cases hab

theorem WellFormed.same_symm {a : Ty} (ha : a.WellFormed) :
    ∀ b : Ty, b.WellFormed → a.Same b → b.Same a := by
  induction ha with
  | @intro a hcanonical hparts ih =>
    intro b hb h
    cases a with
    | unknown | invalid =>
      cases b with
      | unknown | invalid => exact h
      | _ => cases h
    | prim p =>
      cases b with
      | prim q =>
        obtain rfl : p = q := beq_iff_eq.mp h
        exact h
      | _ => cases h
    | cls c =>
      cases b with
      | cls d =>
        rw [same_cls_iff] at h ⊢
        exact ⟨h.1.symm, h.2.symm⟩
      | _ => cases h
    | union members =>
      cases b with
      | union members' =>
        rw [same_union_iff] at h ⊢
        refine ⟨h.1.symm, fun m' hm' => ?_⟩
        -- No two members equal the same one on the other side, for then they would equal each other.
        -- There are as many on either side, so each member there has a partner.
        have hown : members.Pairwise fun m n => ∀ m' ∈ members', m.Same m' → ¬n.Same m' := by
          have hdistinct := (hcanonical members rfl).2.distinct
          refine hdistinct.imp_of_mem fun {m n} hm hn hne m' hm' hm₁ hn₁ => ?_
          have hsame : m.Same n :=
            (hparts m hm).same_trans m' n hm₁ (ih n hn m' (hb.part m' hm') hn₁)
          exact Bool.eq_false_iff.mp hne hsame
        obtain ⟨m, hm, hsame⟩ := exists_partner h.1 h.2 hown m' hm'
        exact ⟨m, hm, ih m hm m' (hb.part m' hm') hsame⟩
      | _ => cases h
    | generic base args =>
      cases b with
      | generic base' args' =>
        rw [same_generic_iff] at h ⊢
        exact forall₂_symm h fun a ha b hb' => ih a ha b (hb.part b hb')
      | _ => cases h
    | func main overloads =>
      cases b with
      | func main' overloads' =>
        rw [same_func_iff] at h ⊢
        refine forall₂_symm h fun sig hsig sig' hsig' h => h.symm fun ty hty ty' hty' => ?_
        exact ih ty (List.mem_flatMap.mpr ⟨sig, hsig, hty⟩) ty' (hb.signature hsig' ty' hty')
      | _ => cases h
    | array element =>
      cases b with
      | array element' =>
        exact ih element (List.mem_singleton_self _) element' (hb.part _ (List.mem_singleton_self _)) h
      | _ => cases h
    | tuple items =>
      cases b with
      | tuple items' =>
        refine (allSame_iff _ _).mpr (forall₂_symm ((allSame_iff _ _).mp h) ?_)
        exact fun a ha b hb' => ih a ha b (hb.part b hb')
      | _ => cases h

/-- Equal types have the same classes at the top. -/
theorem HasTop.of_same {cls : String} {a b : Ty} (ha : a.WellFormed) (hb : b.WellFormed)
    (h : b.HasTop cls) (hsame : a.same b = true) : a.HasTop cls := by
  rw [hasTop_iff] at h ⊢
  obtain ⟨m, hm, hname⟩ := h
  have hback := ha.same_symm b hb hsame
  cases b with
  | union members =>
    cases a with
    | union members' =>
      obtain ⟨m', hm', hsame⟩ := ((same_union_iff _ _).mp hback).2 m hm
      exact ⟨m', hm', (topName?_of_same hsame).symm.trans hname⟩
    | _ => cases hsame
  | _ =>
    obtain rfl := List.mem_singleton.mp hm
    have htop := (topName?_of_same hsame).trans hname
    cases a with
    | union members => cases htop
    | _ => exact ⟨_, List.mem_singleton_self _, htop⟩

/-- A class at the top of one of two types is at the top of their join. -/
theorem WellFormed.hasTop_join {cls : String} {a b : Ty} (ha : a.WellFormed) (hb : b.WellFormed)
    (h : b.HasTop cls) : (a.join b).HasTop cls :=
  hasTop_join_right h (HasTop.of_same ha hb h)

end Ty

end LuaTypes
