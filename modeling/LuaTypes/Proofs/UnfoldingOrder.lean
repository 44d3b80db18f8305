import LuaTypes.Proofs.Untangled

/-!
Equal types unfold to equal types, whatever the order of the members of their unions, if each union
in them is untangled.
-/

namespace LuaTypes

/-! Members in another order. -/

/-- The members of one of two equal unions, put in the order of the other. -/
theorem Ty.WellFormed.exists_reordered {members members' : List Ty}
    (h : (Ty.union members).WellFormed) (h' : (Ty.union members').WellFormed)
    (hsame : (Ty.union members).Same (.union members')) :
    ∃ reordered, members.Perm reordered ∧ List.Forall₂ Ty.Same reordered members' := by
  have hback := ((same_union_iff _ _).mp (h.same_symm _ h' hsame)).2
  refine exists_perm_forall₂ ((same_union_iff _ _).mp hsame).1 (fun n hn => ?_) ?_
  · obtain ⟨m, hm, hnm⟩ := hback n hn
    exact ⟨m, hm, (h'.part n hn).same_symm m (h.part m hm) hnm⟩
  · refine (h'.canonical members' rfl).2.distinct.imp_of_mem ?_
    intro n n' hn hn' hne m hm hmn hmn'
    have hnm := (h.part m hm).same_symm n (h'.part n hn) hmn
    exact Bool.eq_false_iff.mp hne ((h'.part n hn).same_trans m n' hnm hmn')

/-! Unfoldings that begin with the same names. -/

/-- Where the same names are met before, both give related results and the same names are met
after. -/
def Tandem {α β : Type} (R : α → β → Prop) (x : Unfolding α) (y : Unfolding β) : Prop :=
  ∀ met met', (∀ name, name ∈ met ↔ name ∈ met') →
    R (x met).1 (y met').1 ∧ ∀ name, name ∈ (x met).2 ↔ name ∈ (y met').2

namespace Tandem

variable {α β γ δ : Type} {R : α → β → Prop} {S : γ → δ → Prop}

theorem pure {a : α} {b : β} (h : R a b) : Tandem R (Pure.pure a) (Pure.pure b) :=
  fun _ _ hmet => ⟨h, hmet⟩

theorem bind {x : Unfolding α} {y : Unfolding β} {f : α → Unfolding γ} {g : β → Unfolding δ}
    (hx : Tandem R x y) (hf : ∀ a b, R a b → Tandem S (f a) (g b)) :
    Tandem S (x >>= f) (y >>= g) := by
  intro met met' hmet
  obtain ⟨hval, hmet⟩ := hx met met' hmet
  exact hf _ _ hval _ _ hmet

theorem mapM {f : α → Unfolding γ} {g : β → Unfolding δ} {as : List α} {bs : List β}
    (h : List.Forall₂ R as bs) (hf : ∀ a ∈ as, ∀ b ∈ bs, R a b → Tandem S (f a) (g b)) :
    Tandem (List.Forall₂ S) (as.mapM f) (bs.mapM g) := by
  induction h with
  | nil => exact pure .nil
  | cons hab _ ih =>
    rw [List.mapM_cons, List.mapM_cons]
    refine (hf _ List.mem_cons_self _ List.mem_cons_self hab).bind fun _ _ hval => ?_
    refine (ih fun a ha b hb => ?_).bind fun _ _ hvals => pure (.cons hval hvals)
    exact hf a (List.mem_cons_of_mem _ ha) b (List.mem_cons_of_mem _ hb)

end Tandem

theorem Field.allSame_iff_forall₂ (ps qs : List Field) :
    Field.allSame ps qs = true ↔ List.Forall₂ (fun p q => p.same q = true) ps qs := by
  induction ps generalizing qs with
  | nil => cases qs <;> simp [allSame]
  | cons p ps ih => cases qs <;> simp [allSame, ih]

theorem Field.same_iff (p q : Field) : p.same q = true ↔ p.name = q.name ∧ p.ty.Same q.ty := by
  obtain ⟨name, ty⟩ := p
  obtain ⟨name', ty'⟩ := q
  simp [same, Ty.Same]

theorem Tandem.mapTypesM {sig sig' : Signature} (h : sig.Same sig') {f g : Ty → Unfolding Ty}
    (hf : ∀ a ∈ sig.types, ∀ b ∈ sig'.types, a.Same b → Tandem Ty.Same (f a) (g b)) :
    Tandem Signature.Same (sig.mapTypesM f) (sig'.mapTypesM g) := by
  rw [← Signature.same_iff] at h
  obtain ⟨colon, params, vararg?, ret, typeParams⟩ := sig
  obtain ⟨colon', params', vararg?', ret', typeParams'⟩ := sig'
  simp only [Signature.same, Bool.and_eq_true, beq_iff_eq] at h
  obtain ⟨⟨⟨⟨rfl, hparams⟩, hvararg⟩, hret⟩, rfl⟩ := h
  have hparams : Tandem (List.Forall₂ fun p q : Field => p.same q = true)
      (params.mapM fun p => do return ⟨p.name, ← f p.ty⟩)
      (params'.mapM fun p => do return ⟨p.name, ← g p.ty⟩) := by
    refine Tandem.mapM ((Field.allSame_iff_forall₂ _ _).mp hparams) fun p hp q hq hpq => ?_
    obtain ⟨hname, hty⟩ := (Field.same_iff p q).mp hpq
    have hty := hf p.ty (List.mem_append_left _ (List.mem_map_of_mem hp)) q.ty
      (List.mem_append_left _ (List.mem_map_of_mem hq)) hty
    exact hty.bind fun a b hab => .pure ((Field.same_iff ⟨p.name, a⟩ ⟨q.name, b⟩).mpr ⟨hname, hab⟩)
  have hrest (params params' : List Field) (v? w? : Option Ty)
      (hparams : List.Forall₂ (fun p q : Field => p.same q = true) params params')
      (hvararg : Ty.sameOption v? w? = true) :
      Tandem Signature.Same (do return ⟨colon, params, v?, ← f ret, typeParams⟩)
        (do return ⟨colon, params', w?, ← g ret', typeParams⟩) := by
    refine (hf ret (List.mem_append_right _ List.mem_cons_self) ret'
      (List.mem_append_right _ List.mem_cons_self) hret).bind fun a b hab => .pure ?_
    rw [← Signature.same_iff]
    simp only [Signature.same, Bool.and_eq_true, beq_self_eq_true, true_and, and_true]
    exact ⟨⟨(Field.allSame_iff_forall₂ _ _).mpr hparams, hvararg⟩, hab⟩
  refine hparams.bind fun params params' hparams => ?_
  cases vararg? with
  | none =>
    cases vararg?' with
    | none => exact hrest params params' none none hparams rfl
    | some w => cases hvararg
  | some v =>
    cases vararg?' with
    | none => cases hvararg
    | some w =>
      have hv := hf v (List.mem_append_right _ (List.mem_cons_of_mem _ (List.mem_singleton_self v)))
        w (List.mem_append_right _ (List.mem_cons_of_mem _ (List.mem_singleton_self w))) hvararg
      exact hv.bind fun a b hab => hrest params params' (some a) (some b) hparams hab

/-! Equal types. -/

/-- Classes in the types, outside of generics, that equal each other stand for the same. -/
def StandAlike (stands : ClassTy → Option Ty) (a b : Ty) : Prop :=
  ∀ c d : ClassTy, a.Enters (.cls c) → b.Enters (.cls d) → (c == d) = true → stands c = stands d

/-- Each union in the type, outside of generics, is untangled. -/
def Ty.Orderly (stands : ClassTy → Option Ty) (ty : Ty) : Prop :=
  ∀ members, ty.Enters (.union members) → ∃ opened, Untangled stands opened members

section

variable {stands : ClassTy → Option Ty} {a b p q : Ty}

theorem StandAlike.part (h : StandAlike stands a b) (hp : p ∈ a.walked false)
    (hq : q ∈ b.walked false) : StandAlike stands p q :=
  fun c d hc hd => h c d (.part hp hc) (.part hq hd)

theorem Ty.Orderly.part (h : a.Orderly stands) (hp : p ∈ a.walked false) : p.Orderly stands :=
  fun members hmembers => h members (.part hp hmembers)

end

namespace Aliases

variable {A : Aliases} {opened : ClassTy → Prop} {members members' : List Ty}

/-- A type that is neither a union nor a sentinel unfolds to no sentinel. -/
theorem isInvalid_unfold (depth : Nat) {ty : Ty} (h : ty.WellFormed) (hplain : ty.isPlain = true)
    (met : List String) : (A.unfold depth ty met).1.isInvalid = false := by
  cases ty with
  | unknown | invalid | union members => cases hplain
  | cls c =>
    cases depth with
    | zero => rfl
    | succ depth =>
      by_cases hmem : c.name ∈ met
      · rw [unfold_cls_of_mem hmem]
        rfl
      · cases hstands : A.stands c with
        | none =>
          rw [unfold_cls_of_none hmem hstands]
          rfl
        | some target =>
          have htarget := A.unfold_wellFormed maxSubstDepth (A.target hstands) (c.name :: met)
          rw [unfold_cls_of_some hmem hstands]
          have hself := Ty.shows_cls.mpr (Ty.same_refl (.cls c))
          exact ((htarget.shows_join h h).mpr (.inr hself)).1
  | _ => cases depth <;> rfl

/-- A union unfolds to no sentinel. -/
theorem isInvalid_unionAll_unfold (h : (Ty.union members).WellFormed) (depth : Nat)
    (met : List String) :
    (Ty.unionAll (members.mapM (A.unfold depth) met).1).isInvalid = false := by
  have hmembers : ∀ m ∈ members, m.WellFormed := h.part
  have htypes := mapM_wellFormed (A := A) hmembers depth met
  obtain ⟨htwo, hproper⟩ := h.canonical members rfl
  cases members with
  | nil => cases htwo
  | cons m rest =>
    rw [Unfolding.mapM_cons] at htypes ⊢
    have hm := h.part m List.mem_cons_self
    have hvalid := isInvalid_unfold (A := A) depth hm (hproper.plain m List.mem_cons_self) met
    have hwf := A.unfold_wellFormed depth hm met
    obtain ⟨n, hn⟩ := List.exists_mem_of_ne_nil _ hwf.each_ne_nil
    exact ((Ty.WellFormed.shows_unionAll htypes (hwf.each n hn)).mpr
      ⟨_, List.mem_cons_self, Ty.WellFormed.shows_of_mem hvalid hn⟩).1

theorem mapM_unfold_zero (types : List Ty) (met : List String) :
    types.mapM (A.unfold 0) met = (types, met) := by
  induction types with
  | nil => rfl
  | cons ty types ih => rw [Unfolding.mapM_cons, unfold_zero, ih]

/-- The members of an untangled union may be unfolded in any order. -/
theorem unfold_reordered (h : Untangled A.stands opened members)
    (hunion : (Ty.union members).WellFormed) (hperm : members.Perm members') (depth : Nat)
    (met : List String) :
    (Ty.unionAll (members.mapM (A.unfold depth) met).1).Same
        (Ty.unionAll (members'.mapM (A.unfold depth) met).1) ∧
      ∀ name, name ∈ (members.mapM (A.unfold depth) met).2 ↔
        name ∈ (members'.mapM (A.unfold depth) met).2 := by
  have hmembers : ∀ m ∈ members, m.WellFormed := hunion.part
  have hmembers' : ∀ m ∈ members', m.WellFormed := fun m hm => hmembers m (hperm.mem_iff.mpr hm)
  have htypes := mapM_wellFormed (A := A) hmembers depth met
  have htypes' := mapM_wellFormed (A := A) hmembers' depth met
  have hnodup : members.Nodup := hunion.nodup_each
  have hboth : (∀ name, name ∈ (members.mapM (A.unfold depth) met).2 ↔
        name ∈ (members'.mapM (A.unfold depth) met).2) ∧
      ∀ m : Ty, m.WellFormed → ((∃ ty ∈ (members.mapM (A.unfold depth) met).1, ty.Shows m) ↔
        ∃ ty ∈ (members'.mapM (A.unfold depth) met).1, ty.Shows m) := by
    cases depth with
    | zero =>
      rw [mapM_unfold_zero, mapM_unfold_zero]
      exact ⟨fun _ => Iff.rfl, fun m _ => by simp [hperm.mem_iff]⟩
    | succ depth =>
      obtain ⟨hmet, hshows⟩ :=
        h.unfold_members hmembers (fun _ => Iff.rfl) hnodup met depth.succ_pos
      obtain ⟨hmet', hshows'⟩ := h.unfold_members hmembers (fun _ => hperm.mem_iff.symm)
        (hperm.nodup hnodup) met depth.succ_pos
      exact ⟨fun name => (hmet name).trans (hmet' name).symm,
        fun m hm => (hshows m hm).trans (hshows' m hm).symm⟩
  obtain ⟨hmet, hshows⟩ := hboth
  refine ⟨Ty.WellFormed.same_of_shows (.unionAll htypes) (.unionAll htypes') ?_ fun m hm => ?_,
    hmet⟩
  · exact isInvalid_unionAll_unfold hunion depth met
  · rw [Ty.WellFormed.shows_unionAll htypes hm, Ty.WellFormed.shows_unionAll htypes' hm]
    exact hshows m hm

/-- A union equals one of types that equal its own in turn. -/
theorem unionAll_same {types types' : List Ty} (h : ∀ ty ∈ types, ty.WellFormed)
    (h' : ∀ ty ∈ types', ty.WellFormed) (hsame : List.Forall₂ Ty.Same types types') :
    (Ty.unionAll types).Same (.unionAll types') := by
  have hback : List.Forall₂ Ty.Same types' types :=
    forall₂_symm hsame fun a ha b hb hab => (h a ha).same_symm b (h' b hb) hab
  exact Ty.WellFormed.unionAll_congr h h' (exists_of_mem_forall₂ hsame)
    (exists_of_mem_forall₂ hback)

/-- Equal classes that stand for the same unfold to equal types. -/
theorem unfold_cls_same {c d : ClassTy} (hc : (Ty.cls c).WellFormed) (hd : (Ty.cls d).WellFormed)
    (hsame : (Ty.cls c).Same (.cls d)) (hstands : A.stands c = A.stands d) (depth : Nat) :
    Tandem Ty.Same (A.unfold depth (.cls c)) (A.unfold depth (.cls d)) := by
  cases depth with
  | zero => exact .pure hsame
  | succ depth =>
    intro met met' hmet
    have hname : c.name = d.name := ((Ty.same_cls_iff c d).mp hsame).1
    by_cases hmem : c.name ∈ met
    · have hmem' : d.name ∈ met' := hname ▸ (hmet c.name).mp hmem
      rw [unfold_cls_of_mem hmem, unfold_cls_of_mem hmem']
      exact ⟨hsame, hmet⟩
    · have hmem' : d.name ∉ met' := fun h => hmem ((hmet c.name).mpr (hname ▸ h))
      have hcons (name : String) : name ∈ c.name :: met ↔ name ∈ d.name :: met' := by
        rw [List.mem_cons, List.mem_cons, hname, hmet]
      cases htarget : A.stands c with
      | none =>
        rw [unfold_cls_of_none hmem htarget, unfold_cls_of_none hmem' (hstands ▸ htarget)]
        exact ⟨hsame, hcons⟩
      | some target =>
        have hwf := A.target htarget
        obtain ⟨hval, added, -, hafter, hafter'⟩ := A.unfold_alike none target nofun
          (fun name _ => hcons name) maxSubstDepth
        rw [unfold_cls_of_some hmem htarget, unfold_cls_of_some hmem' (hstands ▸ htarget)]
        refine ⟨?_, fun name => ?_⟩
        · have hty := A.unfold_wellFormed maxSubstDepth hwf (c.name :: met)
          have hty' := A.unfold_wellFormed maxSubstDepth hwf (d.name :: met')
          exact hty.join_same hc hty' hd (hval ▸ Ty.same_refl _) hsame
        · exact (hafter name).trans ((or_congr_left (hcons name)).trans (hafter' name).symm)

/-- Equal unions unfold to equal types if the first is untangled and their members do. -/
theorem unfold_union_same (h : Untangled A.stands opened members)
    (ha : (Ty.union members).WellFormed) (hb : (Ty.union members').WellFormed)
    (hsame : (Ty.union members).Same (.union members')) (depth : Nat)
    (hpart : ∀ p ∈ members, ∀ q ∈ members', p.Same q →
      Tandem Ty.Same (A.unfold depth p) (A.unfold depth q)) :
    Tandem Ty.Same (A.unfold (depth + 1) (.union members))
      (A.unfold (depth + 1) (.union members')) := by
  -- The members are put in the order of the other ones first, and then unfold in pairs with them.
  obtain ⟨reordered, hperm, hpairs⟩ := ha.exists_reordered hb hsame
  have hreordered : ∀ m ∈ reordered, m.WellFormed := fun m hm => ha.part m (hperm.mem_iff.mpr hm)
  intro met met' hmet
  obtain ⟨hval, hnames⟩ := unfold_reordered h ha hperm depth met
  obtain ⟨hvals, hnames'⟩ := Tandem.mapM hpairs
    (fun p hp q hq => hpart p (hperm.mem_iff.mpr hp) q hq) met met' hmet
  have hval' := unionAll_same (mapM_wellFormed hreordered depth met)
    (mapM_wellFormed hb.part depth met') hvals
  have htypes := mapM_wellFormed (A := A) ha.part depth met
  exact ⟨Ty.WellFormed.same_trans (.unionAll htypes) _ _ hval hval',
    fun name => (hnames name).trans (hnames' name)⟩

/-- Equal functions unfold to equal types if their parts do. -/
theorem unfold_func_same {main main' : Signature} {overloads overloads' : List Signature}
    (hsame : (Ty.func main overloads).Same (.func main' overloads')) (depth : Nat)
    (hpart : ∀ s ∈ main :: overloads, ∀ t ∈ main' :: overloads', ∀ p ∈ s.types, ∀ q ∈ t.types,
      p.Same q → Tandem Ty.Same (A.unfold depth p) (A.unfold depth q)) :
    Tandem Ty.Same (A.unfold (depth + 1) (.func main overloads))
      (A.unfold (depth + 1) (.func main' overloads')) := by
  rw [Ty.same_func_iff, List.forall₂_cons] at hsame
  have hmain := Tandem.mapTypesM hsame.1 (hpart main List.mem_cons_self main' List.mem_cons_self)
  have hoverloads := Tandem.mapM (S := Signature.Same) hsame.2 fun s hs t ht hst =>
    Tandem.mapTypesM hst (hpart s (List.mem_cons_of_mem _ hs) t (List.mem_cons_of_mem _ ht))
  refine hmain.bind fun main main' hmain => hoverloads.bind fun overloads overloads' h => .pure ?_
  exact (Ty.same_func_iff _ _ _ _).mpr (.cons hmain h)

/-- Equal types unfold to equal types. -/
theorem unfold_same (depth : Nat) {a b : Ty} (ha : a.WellFormed) (hb : b.WellFormed)
    (hsame : a.Same b) (halike : StandAlike A.stands a b) (horderly : a.Orderly A.stands) :
    Tandem Ty.Same (A.unfold depth a) (A.unfold depth b) := by
  induction depth generalizing a b with
  | zero => exact .pure hsame
  | succ depth ih =>
    have hpart {p q : Ty} (hp : p ∈ a.walked false) (hq : q ∈ b.walked false)
        (hp' : p.WellFormed) (hq' : q.WellFormed) (hsame : p.Same q) :
        Tandem Ty.Same (A.unfold depth p) (A.unfold depth q) :=
      ih hp' hq' hsame (halike.part hp hq) (horderly.part hp)
    cases a with
    | unknown | invalid | prim p =>
      cases b with
      | unknown | invalid | prim q => exact .pure hsame
      | _ => cases hsame
    | cls c =>
      cases b with
      | cls d =>
        have hstands := halike c d (.refl _) (.refl _) hsame
        exact unfold_cls_same ha hb hsame hstands (depth + 1)
      | _ => cases hsame
    | union members =>
      cases b with
      | union members' =>
        obtain ⟨opened, huntangled⟩ := horderly members (.refl _)
        exact unfold_union_same huntangled ha hb hsame depth fun p hp q hq =>
          hpart hp hq (ha.part p hp) (hb.part q hq)
      | _ => cases hsame
    | generic base args =>
      cases b with
      | generic base' args' => exact .pure hsame
      | _ => cases hsame
    | func main overloads =>
      cases b with
      | func main' overloads' =>
        refine unfold_func_same hsame depth fun s hs t ht p hp q hq => ?_
        exact hpart (List.mem_flatMap.mpr ⟨s, hs, hp⟩) (List.mem_flatMap.mpr ⟨t, ht, hq⟩)
          (ha.signature hs p hp) (hb.signature ht q hq)
      | _ => cases hsame
    | array element =>
      cases b with
      | array element' =>
        refine (hpart (List.mem_singleton_self _) (List.mem_singleton_self _) ?_ ?_ hsame).bind
          fun _ _ hsame => .pure hsame
        · exact ha.part _ (List.mem_singleton_self _)
        · exact hb.part _ (List.mem_singleton_self _)
      | _ => cases hsame
    | tuple items =>
      cases b with
      | tuple items' =>
        refine (Tandem.mapM ((Ty.allSame_iff _ _).mp hsame) fun p hp q hq hsame => ?_).bind
          fun _ _ hsame => .pure ((Ty.allSame_iff _ _).mpr hsame)
        exact hpart hp hq (ha.part p hp) (hb.part q hq) hsame
      | _ => cases hsame

end Aliases

end LuaTypes
