import LuaTypes.Proofs.Substitution
import LuaTypes.Ty.SelfType

/-!
Self types on demand. To put in the self type is to replace one bound name, and the type of the
receiver is computed at the first class node of that name that a substitution comes to, if there is
one, and never again.
-/

namespace LuaTypes

/-! Types that name the self type. -/

/-- The self type bound to the type of a receiver. -/
def Bindings.self (receiver : Ty) : Bindings := ⟨[(selfWord, receiver)]⟩

@[simp] theorem Bindings.get?_self (receiver : Ty) (name : String) :
    (Bindings.self receiver).get? name = if name = selfWord then some receiver else none := by
  by_cases hname : name = selfWord
  · simp [Bindings.self, OrderedMap.get?, hname]
  · simp [Bindings.self, OrderedMap.get?, List.lookup_cons, beq_false_of_ne hname, hname]

namespace Ty

/-- The class is a node of the type at this depth, where the type itself is at depth one. Doc tables
are not looked into. -/
inductive MentionsAt (c : ClassTy) : Nat → Ty → Prop
  | here : MentionsAt c 1 (.cls c)
  | part {ty part : Ty} {depth : Nat} :
    part ∈ ty.walked true → MentionsAt c depth part → MentionsAt c (depth + 1) ty

/-- A class node named `self` is in the type no deeper than this. -/
def NamesSelfWithin (limit : Nat) (ty : Ty) : Prop :=
  ∃ c depth, c.name = selfWord ∧ depth ≤ limit ∧ ty.MentionsAt c depth

/-- A class node named `self` is in the type no deeper than a substitution goes. -/
def NamesSelf (ty : Ty) : Prop := ty.NamesSelfWithin maxSubstDepth

/-- The type with the type of a receiver in place of the self type. -/
def withReceiver (ty receiver : Ty) : Ty := (Bindings.self receiver).apply ty

theorem not_namesSelfWithin_zero (ty : Ty) : ¬ty.NamesSelfWithin 0 := by
  rintro ⟨c, depth, -, hdepth, hc⟩
  cases hc <;> cases hdepth

theorem namesSelfWithin_succ {limit : Nat} {ty : Ty} : ty.NamesSelfWithin (limit + 1) ↔
    (∃ c, ty = .cls c ∧ c.name = selfWord) ∨
      ∃ part ∈ ty.walked true, part.NamesSelfWithin limit := by
  constructor
  · rintro ⟨c, _, hname, hdepth, hc⟩
    cases hc with
    | here => exact .inl ⟨c, rfl, hname⟩
    | part hpart hc =>
      exact .inr ⟨_, hpart, c, _, hname, Nat.le_of_succ_le_succ hdepth, hc⟩
  · rintro (⟨c, rfl, hname⟩ | ⟨part, hpart, c, depth, hname, hdepth, hc⟩)
    · exact ⟨c, 1, hname, Nat.le_add_left 1 limit, .here⟩
    · exact ⟨c, depth + 1, hname, Nat.succ_le_succ hdepth, .part hpart hc⟩

end Ty

/-! Computations that may need the receiver. -/

section

variable {m : Type → Type} [Monad m] {α β : Type}

/-- The computation gives a result that depends on the type of a receiver. If the type is known it
is taken; else it is computed if it is needed, and left alone if it is not. -/
structure OnDemand (compute : m Ty) (needed : Prop) (result : Ty → α) (x : WithReceiver m α) :
    Prop where
  known (receiver : Ty) : x.run (some receiver) = pure (result receiver, some receiver)
  first : needed → x.run none = (do
    let receiver ← compute
    return (result receiver, some receiver))
  idle : ¬needed → ∀ receiver, x.run none = pure (result receiver, none)
  constant : ¬needed → ∀ receiver other, result receiver = result other

namespace OnDemand

variable {compute : m Ty} {needed needed' : Prop} {result result' : Ty → α} {x : WithReceiver m α}

theorem congr (h : OnDemand compute needed result x) (hneeded : needed ↔ needed')
    (hresult : ∀ receiver, result receiver = result' receiver) :
    OnDemand compute needed' result' x := by
  obtain rfl : result = result' := funext hresult
  rwa [← propext hneeded]

theorem pure (a : α) : OnDemand compute False (fun _ => a) (Pure.pure a) :=
  ⟨fun _ => rfl, False.elim, fun _ _ => rfl, fun _ _ _ => rfl⟩

variable [LawfulMonad m]

theorem receiverTy : OnDemand compute True id (LuaTypes.receiverTy compute) where
  known receiver := by simp [LuaTypes.receiverTy]
  first _ := by simp [LuaTypes.receiverTy]
  idle h := (h trivial).elim
  constant h := (h trivial).elim

theorem bind {result' : α → Ty → β} {f : α → WithReceiver m β}
    (hx : OnDemand compute needed result x)
    (hf : ∀ a, OnDemand compute needed' (result' a) (f a)) :
    OnDemand compute (needed ∨ needed') (fun receiver => result' (result receiver) receiver)
      (x >>= f) where
  known receiver := by rw [StateT.run_bind, hx.known, pure_bind, (hf _).known]
  first h := by
    rw [StateT.run_bind]
    by_cases hneeded : needed
    · simp only [hx.first hneeded, bind_assoc, pure_bind, (hf _).known]
    · -- What comes before the receiver is computed does not depend on it.
      rw [hx.idle hneeded default, pure_bind, (hf _).first (h.resolve_left hneeded)]
      refine bind_congr fun receiver => ?_
      rw [hx.constant hneeded receiver default]
  idle h receiver := by
    obtain ⟨hneeded, hneeded'⟩ := not_or.mp h
    rw [StateT.run_bind, hx.idle hneeded receiver, pure_bind, (hf _).idle hneeded' receiver]
  constant h receiver other := by
    obtain ⟨hneeded, hneeded'⟩ := not_or.mp h
    rw [hx.constant hneeded receiver other, (hf _).constant hneeded' receiver other]

theorem bind_pure (h : OnDemand compute needed result x) (f : α → β) :
    OnDemand compute needed (fun receiver => f (result receiver)) (do return f (← x)) :=
  (h.bind fun a => pure (f a)).congr (or_false needed).to_iff fun _ => rfl

theorem map (h : OnDemand compute needed result x) (f : α → β) :
    OnDemand compute needed (fun receiver => f (result receiver)) (f <$> x) := by
  rw [map_eq_pure_bind]
  exact h.bind_pure f

theorem mapM {needed : α → Prop} {result : Ty → α → β} {f : α → WithReceiver m β} (as : List α)
    (hf : ∀ a ∈ as, OnDemand compute (needed a) (result · a) (f a)) :
    OnDemand compute (∃ a ∈ as, needed a) (fun receiver => as.map (result receiver))
      (as.mapM f) := by
  induction as with
  | nil => exact (pure []).congr (by simp) fun _ => rfl
  | cons a as ih =>
    obtain ⟨ha, has⟩ := List.forall_mem_cons.mp hf
    rw [List.mapM_cons]
    refine (ha.bind fun b => (ih has).bind_pure (b :: ·)).congr ?_ fun _ => rfl
    simp

end OnDemand

end

/-! Substitution. -/

section

variable {m : Type → Type} [Monad m] [LawfulMonad m] {compute : m Ty}

namespace OnDemand

variable {depth : Nat}

theorem mapTypesM {needed : Ty → Prop} {f : Ty → WithReceiver m Ty} (sig : Signature)
    (hf : ∀ ty ∈ sig.types,
      OnDemand compute (needed ty) (fun receiver => ty.replaced (.self receiver) depth) (f ty)) :
    OnDemand compute (∃ ty ∈ sig.types, needed ty)
      (fun receiver => sig.replaced (.self receiver) depth) (sig.mapTypesM f) := by
  obtain ⟨colon, params, vararg?, ret, typeParams⟩ := sig
  have hparams : OnDemand compute (∃ p ∈ params, needed p.ty)
      (fun receiver => Field.replacedAll (.self receiver) depth params)
      (params.mapM fun p => do return (⟨p.name, ← f p.ty⟩ : Field)) := by
    simp only [Field.replacedAll_eq_map]
    exact mapM params fun p hp =>
      (hf p.ty (List.mem_append_left _ (List.mem_map_of_mem hp))).bind_pure (Field.mk p.name)
  have hret (params : List Field) (vararg? : Option Ty) :=
    (hf ret (List.mem_append_right _ List.mem_cons_self)).bind_pure fun ret =>
      Signature.mk colon params vararg? ret typeParams
  cases vararg? with
  | none =>
    refine (hparams.bind fun params => (pure none).bind fun vararg? => hret params vararg?).congr ?_
      fun _ => rfl
    simp [Signature.types, or_comm]
  | some v =>
    have hv := hf v (List.mem_append_right _ (List.mem_cons_of_mem _ (List.mem_singleton_self v)))
    refine (hparams.bind fun params => (hv.map some).bind fun vararg? => hret params vararg?).congr
      ?_ fun _ => rfl
    simp only [Signature.types, List.mem_append, List.mem_cons, List.mem_map, Option.mem_toList]
    grind

end OnDemand

/-- Substituting computes the type of the receiver if the type names the self type. -/
theorem rewrite_self_onDemand (room : Nat) {depth : Nat} (h : room + depth = maxSubstDepth + 1)
    (ty : Ty) : OnDemand compute (ty.NamesSelfWithin room)
      (fun receiver => ty.replaced (.self receiver) depth)
      (ty.rewrite (selfRewriter compute) room) := by
  induction room generalizing depth ty with
  | zero =>
    have hbelow : maxSubstDepth < depth := by omega
    refine (OnDemand.pure ty).congr (iff_of_false id ty.not_namesSelfWithin_zero) fun receiver => ?_
    rw [Ty.replaced_of_lt _ hbelow]
  | succ room ih =>
    have hwithin : ¬maxSubstDepth < depth := by omega
    have hpart (ty : Ty) : OnDemand compute (ty.NamesSelfWithin room)
        (fun receiver => ty.replaced (.self receiver) (depth + 1))
        (ty.rewrite (selfRewriter compute) room) := ih (by omega) ty
    have hall (types : List Ty) := OnDemand.mapM types fun ty _ => hpart ty
    have hsig (sig : Signature) := OnDemand.mapTypesM sig fun ty _ => hpart ty
    rw [Ty.namesSelfWithin_succ]
    cases ty with
    | unknown | invalid | prim p =>
      simp only [Ty.replaced, if_neg hwithin]
      exact (OnDemand.pure _).congr (by simp [Ty.walked]) fun _ => rfl
    | cls c =>
      simp only [Ty.replaced, if_neg hwithin, Bindings.get?_self]
      rw [Ty.rewrite, selfRewriter]
      by_cases hname : c.name = selfWord
      · simp only [if_pos hname]
        refine ((OnDemand.receiverTy.map some).bind_pure (Option.getD · (Ty.cls c))).congr ?_
          fun _ => rfl
        simp [hname]
      · simp only [if_neg hname]
        refine ((OnDemand.pure none).bind_pure (Option.getD · (Ty.cls c))).congr ?_ fun _ => rfl
        simp [hname, Ty.walked]
    | union members =>
      simp only [Ty.replaced, if_neg hwithin, Ty.replacedAll_eq_map]
      exact ((hall members).bind_pure Ty.unionAll).congr (by simp [Ty.walked]) fun _ => rfl
    | generic base args =>
      simp only [Ty.replaced, if_neg hwithin, Ty.replacedAll_eq_map]
      refine ((hpart base).bind fun base => (hall args).bind_pure (Ty.generic base)).congr ?_
        fun _ => rfl
      simp [Ty.walked]
    | func main overloads =>
      simp only [Ty.replaced, if_neg hwithin, Signature.replacedAll_eq_map]
      refine ((hsig main).bind fun main =>
        (OnDemand.mapM overloads fun sig _ => hsig sig).bind_pure (Ty.func main)).congr ?_
          fun _ => rfl
      simp only [Ty.walked, List.mem_flatMap, List.mem_cons]
      grind
    | array element =>
      simp only [Ty.replaced, if_neg hwithin]
      exact ((hpart element).bind_pure Ty.array).congr (by simp [Ty.walked]) fun _ => rfl
    | tuple items =>
      simp only [Ty.replaced, if_neg hwithin, Ty.replacedAll_eq_map]
      exact ((hall items).bind_pure Ty.tuple).congr (by simp [Ty.walked]) fun _ => rfl

theorem substitute_self_onDemand (ty : Ty) :
    OnDemand compute ty.NamesSelf ty.withReceiver (ty.substitute (selfRewriter compute)) :=
  (rewrite_self_onDemand maxSubstDepth rfl ty).congr Iff.rfl fun _ =>
    (Bindings.apply_eq_replaced ty).symm

end

/-! Sequences of types. -/

section

variable {m : Type → Type} [Monad m] (compute : m Ty) (watch : Ty → m Unit)

/-- Substitutes in one type after the other, with one receiver for all of them. Each is watched as
it comes up. -/
def substituteAll (types : List Ty) : WithReceiver m (List Ty) :=
  types.mapM fun ty => do
    watch ty
    ty.substitute (selfRewriter compute)

variable [LawfulMonad m]

variable {compute watch}

theorem substituteAll_cons (ty : Ty) (types : List Ty) : substituteAll compute watch (ty :: types) =
    (do
      watch ty
      let ty ← ty.substitute (selfRewriter compute)
      let types ← substituteAll compute watch types
      return ty :: types) := by
  simp [substituteAll]

theorem substituteAll_known (types : List Ty) (receiver : Ty) :
    (substituteAll compute watch types).run (some receiver) = do
      types.forM watch
      return (types.map (·.withReceiver receiver), some receiver) := by
  induction types with
  | nil => simp [substituteAll]
  | cons ty types ih =>
    simp [substituteAll_cons, (substitute_self_onDemand ty).known, ih]

theorem substituteAll_idle {types : List Ty} (h : ∀ ty ∈ types, ¬ty.NamesSelf) (receiver : Ty) :
    (substituteAll compute watch types).run none = do
      types.forM watch
      return (types.map (·.withReceiver receiver), none) := by
  induction types with
  | nil => simp [substituteAll]
  | cons ty types ih =>
    obtain ⟨hty, htypes⟩ := List.forall_mem_cons.mp h
    simp [substituteAll_cons, (substitute_self_onDemand ty).idle hty receiver, ih htypes]

theorem substituteAll_first {before after : List Ty} {first : Ty}
    (hbefore : ∀ ty ∈ before, ¬ty.NamesSelf) (hfirst : first.NamesSelf) :
    (substituteAll compute watch (before ++ first :: after)).run none = do
      before.forM watch
      watch first
      let receiver ← compute
      after.forM watch
      return ((before ++ first :: after).map (·.withReceiver receiver), some receiver) := by
  have hsame (receiver : Ty) :
      before.map (·.withReceiver default) = before.map (·.withReceiver receiver) := by
    refine List.map_congr_left fun ty hty => ?_
    have hdemand : OnDemand compute ty.NamesSelf ty.withReceiver _ := substitute_self_onDemand ty
    exact hdemand.constant (hbefore ty hty) default receiver
  have hsplit : substituteAll compute watch (before ++ first :: after) = do
      let types ← substituteAll compute watch before
      let types' ← substituteAll compute watch (first :: after)
      return types ++ types' := by
    simp [substituteAll, List.mapM_append]
  have hrest : (substituteAll compute watch (first :: after)).run none = do
      watch first
      let receiver ← compute
      after.forM watch
      return ((first :: after).map (·.withReceiver receiver), some receiver) := by
    simp [substituteAll_cons, (substitute_self_onDemand first).first hfirst, substituteAll_known]
  rw [hsplit]
  simp only [StateT.run_bind, StateT.run_pure, substituteAll_idle hbefore default, hrest,
    bind_assoc, pure_bind, List.map_append]
  refine bind_congr fun _ => bind_congr fun _ => bind_congr fun receiver => ?_
  rw [hsame receiver]

end

/-- Types in which the self type is put in one after the other become what they become with the type
of the receiver known from the start. The type is computed at the first of them that names the self
type, in between what is done before it and what is done after it, and never if none does. -/
theorem substituteAll_onDemand {m : Type → Type} [Monad m] [LawfulMonad m] (compute : m Ty)
    (watch : Ty → m Unit) (types : List Ty) :
    (∀ receiver, (substituteAll compute watch types).run (some receiver) = do
      types.forM watch
      return (types.map (·.withReceiver receiver), some receiver)) ∧
    (∀ before first after, types = before ++ first :: after → (∀ ty ∈ before, ¬ty.NamesSelf) →
      first.NamesSelf → (substituteAll compute watch types).run none = do
        before.forM watch
        watch first
        let receiver ← compute
        after.forM watch
        return (types.map (·.withReceiver receiver), some receiver)) ∧
    ((∀ ty ∈ types, ¬ty.NamesSelf) → ∀ receiver,
      (substituteAll compute watch types).run none = do
        types.forM watch
        return (types.map (·.withReceiver receiver), none)) := by
  refine ⟨substituteAll_known types, ?_, substituteAll_idle⟩
  rintro before first after rfl hbefore hfirst
  exact substituteAll_first hbefore hfirst

/-- The receiver is computed at the second of three types. -/
theorem substituteAll_onDemand_second :
    let self : Ty := .cls (.deferred selfWord 0)
    let dog : Ty := .cls (.deferred "Dog" 1)
    let compute : StateM (List (Option Ty)) Ty := do
      modify (· ++ [none])
      return dog
    let watch (ty : Ty) : StateM (List (Option Ty)) Unit := modify (· ++ [some ty])
    let pair : Ty := .tuple [self, .array self]
    (∀ ty ∈ [Ty.number], ¬ty.NamesSelf) ∧ pair.NamesSelf ∧
    (substituteAll compute watch [.number, pair, .array self]).run none []
      = (([.number, .tuple [dog, .array dog], .array dog], some dog),
          [some .number, some pair, none, some (.array self)]) := by
  intro self dog compute watch pair
  have hnumber : ∀ ty ∈ [Ty.number], ¬ty.NamesSelf := by
    refine List.forall_mem_singleton.mpr ?_
    rintro ⟨c, _, -, -, hc⟩
    cases hc with
    | part hpart _ => cases hpart
  have hpair : pair.NamesSelf :=
    ⟨.deferred selfWord 0, 2, rfl, by decide, .part List.mem_cons_self .here⟩
  obtain ⟨-, hfirst, -⟩ := substituteAll_onDemand compute watch [.number, pair, .array self]
  refine ⟨hnumber, hpair, ?_⟩
  rw [hfirst [.number] pair [.array self] rfl hnumber hpair]
  rfl

end LuaTypes
