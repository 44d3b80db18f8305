import LuaTypes.Proofs.Restored
import LuaTypes.Proofs.Shown

/-!
Substitution. Bound types take the place of the class nodes that are named like them, all at once
and down to the nesting limit, and the unions around them are formed anew. A type without bound
names stays as it is, and equal types stay equal.
-/

namespace LuaTypes

/-! Replacement by the structure of types. -/

mutual

/-- The type at this depth, where bound types take the place of classes down to the nesting limit. A
bound type is not looked into. -/
def Ty.replaced (b : Bindings) (depth : Nat) (ty : Ty) : Ty :=
  if maxSubstDepth < depth then ty
  else match ty with
    | .unknown => .unknown
    | .invalid => .invalid
    | .prim p => .prim p
    | .cls c => (b.get? c.name).getD (.cls c)
    | .union members => .unionAll (Ty.replacedAll b (depth + 1) members)
    | .generic base args =>
      .generic (base.replaced b (depth + 1)) (Ty.replacedAll b (depth + 1) args)
    | .func main overloads =>
      .func (main.replaced b (depth + 1)) (Signature.replacedAll b (depth + 1) overloads)
    | .array element => .array (element.replaced b (depth + 1))
    | .tuple items => .tuple (Ty.replacedAll b (depth + 1) items)
termination_by structural ty

/-- The types of the signature are at this depth. -/
def Signature.replaced (b : Bindings) (depth : Nat) : Signature → Signature
  | ⟨colon, params, vararg?, ret, typeParams⟩ =>
    ⟨colon, Field.replacedAll b depth params, Ty.replacedOption b depth vararg?,
      ret.replaced b depth, typeParams⟩
termination_by structural sig => sig

def Ty.replacedOption (b : Bindings) (depth : Nat) : Option Ty → Option Ty
  | none => none
  | some ty => some (ty.replaced b depth)
termination_by structural ty? => ty?

def Ty.replacedAll (b : Bindings) (depth : Nat) : List Ty → List Ty
  | [] => []
  | ty :: rest => ty.replaced b depth :: Ty.replacedAll b depth rest
termination_by structural types => types

def Field.replacedAll (b : Bindings) (depth : Nat) : List Field → List Field
  | [] => []
  | ⟨name, ty⟩ :: rest => ⟨name, ty.replaced b depth⟩ :: Field.replacedAll b depth rest
termination_by structural fields => fields

def Signature.replacedAll (b : Bindings) (depth : Nat) : List Signature → List Signature
  | [] => []
  | sig :: rest => sig.replaced b depth :: Signature.replacedAll b depth rest
termination_by structural sigs => sigs

end

section

variable (b : Bindings) (depth : Nat)

/-- Below the nesting limit types stay as they are. -/
theorem Ty.replaced_of_lt {depth : Nat} (h : maxSubstDepth < depth) (ty : Ty) :
    ty.replaced b depth = ty := by
  cases ty <;> rw [Ty.replaced, if_pos h]

theorem Ty.replacedAll_eq_map (types : List Ty) :
    Ty.replacedAll b depth types = types.map (Ty.replaced b depth) := by
  induction types with
  | nil => rfl
  | cons ty rest ih => rw [Ty.replacedAll, ih, List.map_cons]

theorem Signature.replacedAll_eq_map (sigs : List Signature) :
    Signature.replacedAll b depth sigs = sigs.map (Signature.replaced b depth) := by
  induction sigs with
  | nil => rfl
  | cons sig rest ih => rw [Signature.replacedAll, ih, List.map_cons]

theorem Field.replacedAll_eq_map (fields : List Field) :
    Field.replacedAll b depth fields = fields.map fun f => ⟨f.name, f.ty.replaced b depth⟩ := by
  induction fields with
  | nil => rfl
  | cons f rest ih =>
    obtain ⟨name, ty⟩ := f
    rw [Field.replacedAll, ih, List.map_cons]

theorem Signature.types_replaced (sig : Signature) :
    (sig.replaced b depth).types = sig.types.map (Ty.replaced b depth) := by
  obtain ⟨colon, params, vararg?, ret, typeParams⟩ := sig
  rw [replaced, Field.replacedAll_eq_map]
  cases vararg? <;> simp [types, Ty.replacedOption]

theorem Signature.paramNames_replaced (sig : Signature) :
    (sig.replaced b depth).params.map (·.name) = sig.params.map (·.name) := by
  obtain ⟨colon, params, vararg?, ret, typeParams⟩ := sig
  simp [replaced, Field.replacedAll_eq_map]

end

/-! Rewriting. -/

/-- Rewriting the types of a signature without effects. -/
theorem Signature.mapTypesM_pure {m : Type → Type} [Monad m] [LawfulMonad m] (b : Bindings)
    (depth : Nat) (sig : Signature) :
    sig.mapTypesM (m := m) (fun ty => pure (ty.replaced b depth))
      = pure (sig.replaced b depth) := by
  obtain ⟨colon, params, vararg?, ret, typeParams⟩ := sig
  rw [replaced, Field.replacedAll_eq_map]
  cases vararg? <;> simp [mapTypesM, Ty.replacedOption, List.mapM_pure]

namespace Bindings

variable {b : Bindings} {depth : Nat}

/-- The depth of a type and the room that is left below it add up to the nesting limit. -/
theorem rewrite_eq_replaced (room : Nat) (h : room + depth = maxSubstDepth + 1) (ty : Ty) :
    ty.rewrite b.rewriter room = pure (ty.replaced b depth) := by
  induction room generalizing depth ty with
  | zero =>
    have hbelow : maxSubstDepth < depth := by omega
    rw [Ty.replaced_of_lt b hbelow]
    rfl
  | succ room ih =>
    have hwithin : ¬ maxSubstDepth < depth := by omega
    have hrewrite : Ty.rewrite b.rewriter room = fun ty => pure (ty.replaced b (depth + 1)) :=
      funext (ih (by omega))
    cases ty with
    | unknown | invalid | prim p => rw [Ty.replaced, if_neg hwithin]; rfl
    | cls c => rw [Ty.replaced, if_neg hwithin]; rfl
    | union members =>
      rw [Ty.replaced, if_neg hwithin, Ty.rewrite, hrewrite, List.mapM_pure, pure_bind,
        Ty.replacedAll_eq_map]
    | generic base args =>
      rw [Ty.replaced, if_neg hwithin, Ty.rewrite, if_pos (show b.rewriter.entersGenerics from rfl),
        hrewrite, List.mapM_pure, pure_bind, pure_bind, Ty.replacedAll_eq_map]
    | func main overloads =>
      rw [Ty.replaced, if_neg hwithin, Ty.rewrite, hrewrite]
      simp only [Signature.mapTypesM_pure, List.mapM_pure, pure_bind,
        Signature.replacedAll_eq_map]
    | array element =>
      rw [Ty.replaced, if_neg hwithin, Ty.rewrite, hrewrite, pure_bind]
    | tuple items =>
      rw [Ty.replaced, if_neg hwithin, Ty.rewrite, hrewrite, List.mapM_pure, pure_bind,
        Ty.replacedAll_eq_map]

theorem apply_eq_replaced (ty : Ty) : b.apply ty = ty.replaced b 1 :=
  rewrite_eq_replaced maxSubstDepth rfl ty

theorem replaced_wellFormed (hb : b.All Ty.WellFormed) (depth : Nat) {ty : Ty} (h : ty.WellFormed) :
    (ty.replaced b depth).WellFormed := by
  by_cases hbelow : maxSubstDepth < depth
  · rwa [Ty.replaced_of_lt b hbelow]
  · have hroom : maxSubstDepth + 1 - depth + depth = maxSubstDepth + 1 := by omega
    have hkeeps := (Keeping.values.rewrite_keeps (T := wellFormed) (f := b.rewriter)
      (fun _ _ _ hget => hb.get? hget) (maxSubstDepth + 1 - depth) ty).1 h
    rwa [rewrite_eq_replaced _ hroom] at hkeeps

end Bindings

/-! Types without bound names. -/

/-- The class is a node of the type at any depth, outside of doc tables. -/
inductive Ty.Mentions (c : ClassTy) : Ty → Prop
  | here : Ty.Mentions c (.cls c)
  | part {ty part : Ty} : part ∈ ty.walked true → part.Mentions c → ty.Mentions c

theorem Ty.mem_parts_of_walked {ty part : Ty} (h : part ∈ ty.walked true) : part ∈ ty.parts := by
  cases ty with
  | unknown | invalid | prim p | cls c => cases h
  | _ => exact h

section

variable {b : Bindings} {depth : Nat}

theorem Ty.replacedAll_of_eq {types : List Ty} (h : ∀ ty ∈ types, ty.replaced b depth = ty) :
    Ty.replacedAll b depth types = types := by
  rw [Ty.replacedAll_eq_map]
  exact (List.map_congr_left h).trans (List.map_id types)

theorem Signature.replaced_of_eq {sig : Signature}
    (h : ∀ ty ∈ sig.types, ty.replaced b depth = ty) : sig.replaced b depth = sig := by
  obtain ⟨colon, params, vararg?, ret, typeParams⟩ := sig
  have hparams : Field.replacedAll b depth params = params := by
    rw [Field.replacedAll_eq_map]
    refine (List.map_congr_left fun f hf => ?_).trans (List.map_id params)
    have hty := h f.ty (List.mem_append_left _ (List.mem_map_of_mem hf))
    obtain ⟨name, ty⟩ := f
    rw [hty, id]
  have hvararg : Ty.replacedOption b depth vararg? = vararg? := by
    cases vararg? with
    | none => rfl
    | some v =>
      have hv := h v (List.mem_append_right _ (List.mem_cons_of_mem _ List.mem_cons_self))
      exact congrArg some hv
  rw [replaced, hparams, hvararg, h ret (List.mem_append_right _ List.mem_cons_self)]

/-- A type without bound names stays as it is. -/
theorem Ty.WellFormed.replaced_eq_self {ty : Ty} (h : ty.WellFormed)
    (hfree : ∀ c, ty.Mentions c → b.get? c.name = none) : ty.replaced b depth = ty := by
  induction h generalizing depth with
  | @intro ty hcanonical _ ih =>
    by_cases hbelow : maxSubstDepth < depth
    · exact Ty.replaced_of_lt b hbelow ty
    have hparts : ∀ part ∈ ty.walked true, part.replaced b (depth + 1) = part := fun part hpart =>
      ih part (Ty.mem_parts_of_walked hpart) fun c hc => hfree c (.part hpart hc)
    cases ty with
    | unknown | invalid | prim p => rw [Ty.replaced, if_neg hbelow]
    | cls c => rw [Ty.replaced, if_neg hbelow, hfree c .here, Option.getD_none]
    | union members =>
      have hmembers : ∀ m ∈ members, m.replaced b (depth + 1) = m := hparts
      obtain ⟨hlength, hproper⟩ := hcanonical members rfl
      rw [Ty.replaced, if_neg hbelow, Ty.replacedAll_of_eq hmembers, hproper.unionAll hlength]
    | generic base args =>
      obtain ⟨hbase, hargs⟩ := List.forall_mem_cons.mp hparts
      rw [Ty.replaced, if_neg hbelow, hbase, Ty.replacedAll_of_eq hargs]
    | func main overloads =>
      have hsigs : ∀ sig ∈ main :: overloads, sig.replaced b (depth + 1) = sig := fun sig hsig =>
        Signature.replaced_of_eq fun ty hty => hparts ty (List.mem_flatMap.mpr ⟨sig, hsig, hty⟩)
      obtain ⟨hmain, hoverloads⟩ := List.forall_mem_cons.mp hsigs
      rw [Ty.replaced, if_neg hbelow, hmain, Signature.replacedAll_eq_map,
        List.map_congr_left hoverloads, List.map_id']
    | array element =>
      rw [Ty.replaced, if_neg hbelow, hparts element (List.mem_singleton_self _)]
    | tuple items =>
      have hitems : ∀ item ∈ items, item.replaced b (depth + 1) = item := hparts
      rw [Ty.replaced, if_neg hbelow, Ty.replacedAll_of_eq hitems]

end

/-! Equal types. -/

section

variable {b : Bindings} {depth : Nat}

theorem forall₂_map_of_mem {α : Type} {R : α → α → Prop} {f : α → α} {as bs : List α}
    (h : List.Forall₂ R as bs) (hf : ∀ a ∈ as, ∀ b ∈ bs, R a b → R (f a) (f b)) :
    List.Forall₂ R (as.map f) (bs.map f) := by
  induction h with
  | nil => exact .nil
  | cons hab _ ih =>
    refine .cons (hf _ List.mem_cons_self _ List.mem_cons_self hab) (ih fun a ha b hb => ?_)
    exact hf a (List.mem_cons_of_mem _ ha) b (List.mem_cons_of_mem _ hb)

theorem Signature.Same.replaced {sig sig' : Signature} (h : sig.Same sig')
    (hf : ∀ ty ∈ sig.types, ∀ ty' ∈ sig'.types, ty.Same ty' →
      (ty.replaced b depth).Same (ty'.replaced b depth)) :
    (sig.replaced b depth).Same (sig'.replaced b depth) := by
  have htypes : List.Forall₂ Ty.Same (sig.replaced b depth).types
      (sig'.replaced b depth).types := by
    rw [types_replaced, types_replaced]
    exact forall₂_map_of_mem h.types hf
  have hnames : (sig.replaced b depth).params.map (·.name)
      = (sig'.replaced b depth).params.map (·.name) := by
    rw [paramNames_replaced, paramNames_replaced, h.names]
  obtain ⟨hcolon, -, htypeParams, -⟩ := h
  obtain ⟨colon, params, vararg?, ret, typeParams⟩ := sig
  obtain ⟨colon', params', vararg?', ret', typeParams'⟩ := sig'
  exact ⟨hcolon, hnames, htypeParams, htypes⟩

/-- The unions that are formed anew from equal unions are equal. -/
theorem Ty.WellFormed.unionAll_replaced_same (hb : b.All Ty.WellFormed) {members members' : List Ty}
    (h : (Ty.union members).WellFormed) (h' : (Ty.union members').WellFormed)
    (hsame : (Ty.union members).Same (.union members'))
    (hf : ∀ m ∈ members, ∀ m' ∈ members', m.Same m' →
      (m.replaced b depth).Same (m'.replaced b depth)) :
    (Ty.unionAll (Ty.replacedAll b depth members)).Same
      (.unionAll (Ty.replacedAll b depth members')) := by
  have hmembers : ∀ m ∈ members, (m.replaced b depth).WellFormed := fun m hm =>
    Bindings.replaced_wellFormed hb depth (h.part m hm)
  have hmembers' : ∀ m ∈ members', (m.replaced b depth).WellFormed := fun m hm =>
    Bindings.replaced_wellFormed hb depth (h'.part m hm)
  have hpartner := ((same_union_iff _ _).mp hsame).2
  have hpartner' := ((same_union_iff _ _).mp (h.same_symm _ h' hsame)).2
  rw [replacedAll_eq_map, replacedAll_eq_map]
  refine unionAll_congr (List.forall_mem_map.mpr hmembers) (List.forall_mem_map.mpr hmembers')
    (List.forall_mem_map.mpr fun m hm => ?_) (List.forall_mem_map.mpr fun m' hm' => ?_)
  · obtain ⟨m', hm', hmm⟩ := hpartner m hm
    exact ⟨_, List.mem_map_of_mem hm', hf m hm m' hm' hmm⟩
  · obtain ⟨m, hm, hmm⟩ := hpartner' m' hm'
    have hback := hf m hm m' hm' ((h'.part m' hm').same_symm m (h.part m hm) hmm)
    exact ⟨_, List.mem_map_of_mem hm, (hmembers m hm).same_symm _ (hmembers' m' hm') hback⟩

/-- Equal types stay equal. -/
theorem Ty.WellFormed.replaced_same (hb : b.All Ty.WellFormed) {ty ty' : Ty} (h : ty.WellFormed)
    (h' : ty'.WellFormed) (hsame : ty.Same ty') :
    (ty.replaced b depth).Same (ty'.replaced b depth) := by
  induction h generalizing ty' depth with
  | @intro ty hcanonical hwellFormed ih =>
    have h : ty.WellFormed := .intro hcanonical hwellFormed
    by_cases hbelow : maxSubstDepth < depth
    · rwa [Ty.replaced_of_lt b hbelow, Ty.replaced_of_lt b hbelow]
    have hparts : ∀ part ∈ ty.parts, ∀ part' ∈ ty'.parts, part.Same part' →
        (part.replaced b (depth + 1)).Same (part'.replaced b (depth + 1)) :=
      fun part hpart part' hpart' => ih part hpart (h'.part part' hpart')
    cases ty with
    | unknown | invalid | prim p =>
      cases ty' with
      | unknown | invalid | prim q =>
        simp only [Ty.replaced, if_neg hbelow]
        exact hsame
      | _ => cases hsame
    | cls c =>
      cases ty' with
      | cls d =>
        rw [Ty.replaced, Ty.replaced, if_neg hbelow, if_neg hbelow,
          ((same_cls_iff c d).mp hsame).1]
        cases b.get? d.name with
        | none => exact hsame
        | some bound => exact same_refl bound
      | _ => cases hsame
    | union members =>
      cases ty' with
      | union members' =>
        rw [Ty.replaced, Ty.replaced, if_neg hbelow, if_neg hbelow]
        exact h.unionAll_replaced_same hb h' hsame hparts
      | _ => cases hsame
    | generic base args =>
      cases ty' with
      | generic base' args' =>
        rw [Ty.replaced, Ty.replaced, if_neg hbelow, if_neg hbelow, replacedAll_eq_map,
          replacedAll_eq_map, same_generic_iff]
        exact forall₂_map_of_mem ((same_generic_iff _ _ _ _).mp hsame) hparts
      | _ => cases hsame
    | func main overloads =>
      cases ty' with
      | func main' overloads' =>
        rw [Ty.replaced, Ty.replaced, if_neg hbelow, if_neg hbelow,
          Signature.replacedAll_eq_map, Signature.replacedAll_eq_map, same_func_iff,
          ← List.map_cons, ← List.map_cons]
        refine forall₂_map_of_mem ((same_func_iff _ _ _ _).mp hsame) fun sig hsig sig' hsig' h => ?_
        exact h.replaced fun part hpart part' hpart' =>
          hparts part (List.mem_flatMap.mpr ⟨sig, hsig, hpart⟩) part'
            (List.mem_flatMap.mpr ⟨sig', hsig', hpart'⟩)
      | _ => cases hsame
    | array element =>
      cases ty' with
      | array element' =>
        rw [Ty.replaced, Ty.replaced, if_neg hbelow, if_neg hbelow]
        exact hparts element (List.mem_singleton_self _) element' (List.mem_singleton_self _) hsame
      | _ => cases hsame
    | tuple items =>
      cases ty' with
      | tuple items' =>
        rw [Ty.replaced, Ty.replaced, if_neg hbelow, if_neg hbelow, replacedAll_eq_map,
          replacedAll_eq_map]
        exact (allSame_iff _ _).mpr (forall₂_map_of_mem ((allSame_iff _ _).mp hsame) hparts)
      | _ => cases hsame

end

/-- To substitute is to replace the bound names at once down to the nesting limit. A type without
bound names stays the same type, and equal types stay equal. -/
theorem Bindings.apply_replaces (b : Bindings) :
    (∀ ty, b.apply ty = ty.replaced b 1) ∧
    (∀ ty : Ty, ty.WellFormed → (∀ c, ty.Mentions c → b.get? c.name = none) → b.apply ty = ty) ∧
    (b.All Ty.WellFormed → ∀ ty ty' : Ty, ty.WellFormed → ty'.WellFormed → (ty == ty') = true →
      (b.apply ty == b.apply ty') = true) := by
  refine ⟨apply_eq_replaced, fun ty h hfree => ?_, fun hb ty ty' h h' hsame => ?_⟩
  · rw [apply_eq_replaced]
    exact h.replaced_eq_self hfree
  · rw [apply_eq_replaced, apply_eq_replaced]
    exact h.replaced_same hb h' hsame

/-- A type parameter is bound to a class that is named like another one, which is bound as well. -/
theorem Bindings.apply_replaces_crossed :
    let t : Ty := .cls (.deferred "T" 0)
    let u : Ty := .cls (.deferred "U" 1)
    let foo : Ty := .array (.cls (.deferred "Foo" 2))
    let b : Bindings := ⟨[("T", .number), ("U", t)]⟩
    b.All Ty.WellFormed ∧ (Ty.union [t, u]).WellFormed ∧ (Ty.union [u, t]).WellFormed ∧
    (Ty.union [t, u] == Ty.union [u, t]) = true ∧
    b.apply (.union [t, u]) = .union [.number, t] ∧
    (b.apply (.union [t, u]) == b.apply (.union [u, t])) = true ∧
    foo.WellFormed ∧ (∀ c, foo.Mentions c → b.get? c.name = none) ∧ b.apply foo = foo := by
  intro t u foo b
  obtain ⟨hreplaced, hself, hsame⟩ := apply_replaces b
  have ht : t.WellFormed := .cls_of_docFields rfl
  have hu : u.WellFormed := .cls_of_docFields rfl
  have hfoo : foo.WellFormed := .array (.cls_of_docFields rfl)
  have hb : b.All Ty.WellFormed :=
    List.forall_mem_cons.mpr ⟨.prim _, List.forall_mem_singleton.mpr ht⟩
  have htu : (Ty.union [t, u]).WellFormed := .pair ht hu rfl
  have hut : (Ty.union [u, t]).WellFormed := .pair hu ht rfl
  have hfree : ∀ c, foo.Mentions c → b.get? c.name = none := by
    intro c hmentions
    change (Ty.array (.cls (.deferred "Foo" 2))).Mentions c at hmentions
    cases hmentions with
    | part hpart hmentions =>
      obtain rfl := List.mem_singleton.mp hpart
      cases hmentions with
      | here => rfl
      | part hpart _ => cases hpart
  exact ⟨hb, htu, hut, rfl, (hreplaced _).trans rfl, hsame hb _ _ htu hut rfl, hfoo, hfree,
    hself foo hfoo hfree⟩

end LuaTypes
