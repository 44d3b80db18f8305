import LuaTypes.Proofs.Keeping
import LuaTypes.Proofs.TyInvariant

/-!
Rewriting keeps every invariant, since a rewritten union is formed anew: putting in type arguments,
expanding aliases, and putting in the self type. So does inference of type arguments.
-/

namespace LuaTypes

namespace Keeping

variable {m : Type → Type} [Monad m] [LawfulMonad m] (K : Keeping m) {T : TyInvariant}

theorem mapTypesM_holds {f : Ty → m Ty} {sig : Signature} (h : T.Sig sig)
    (hf : ∀ ty, T.Holds ty → K.Ensures T.Holds (f ty))
    (hret : ∀ ty, T.Returns ty → K.Ensures T.Returns (f ty)) :
    K.Ensures T.Sig (sig.mapTypesM f) := by
  obtain ⟨colon, params, vararg?, ret, typeParams⟩ := sig
  have hparams : K.Ensures (fun params : List Field => ∀ p ∈ params, T.Holds p.ty)
      (params.mapM fun p => do return ⟨p.name, ← f p.ty⟩) := by
    apply K.mapM params
    intro p hp
    apply K.bind (hf p.ty (h.params p hp))
    intro ty hty
    exact K.pure hty
  have hrest (params : List Field) (vararg? : Option Ty) (hparams : ∀ p ∈ params, T.Holds p.ty)
      (hvararg : ∀ v ∈ vararg?, T.Holds v) :
      K.Ensures T.Sig (do return ⟨colon, params, vararg?, ← f ret, typeParams⟩) := by
    apply K.bind (hret ret h.ret)
    intro ret hret
    exact K.pure ⟨hparams, hvararg, hret, h.typeParams⟩
  apply K.bind hparams
  intro params hparams
  cases vararg? with
  | none =>
    have hnone : K.Ensures (fun vararg? : Option Ty => ∀ v ∈ vararg?, T.Holds v) (Pure.pure none) :=
      K.pure fun _ hv => by cases hv
    exact K.bind hnone fun vararg? => hrest params vararg? hparams
  | some v =>
    apply K.bind (P := fun vararg? : Option Ty => ∀ v ∈ vararg?, T.Holds v)
    · apply K.map (hf v (h.vararg v rfl))
      rintro v hv _ ⟨⟩
      exact hv
    · exact fun vararg? => hrest params vararg? hparams

/-- A type keeps its property if class nodes are replaced by types with the property, and so do the
values of a result. -/
theorem rewrite_keeps {f : Rewriter m}
    (hf : ∀ c, T.Holds (.cls c) → K.Ensures (fun found => ∀ ty ∈ found, T.Holds ty) (f.replace? c))
    (room : Nat) (ty : Ty) : (T.Holds ty → K.Ensures T.Holds (ty.rewrite f room)) ∧
      (T.Returns ty → K.Ensures T.Returns (ty.rewrite f room)) := by
  -- A tuple may be the result of a function without being a value, and results are rewritten on the
  -- way to values, so the induction carries both halves.
  induction room generalizing ty with
  | zero => exact ⟨K.pure, K.pure⟩
  | succ room ih =>
    have hall {types : List Ty} (h : ∀ ty ∈ types, T.Holds ty) :
        K.Ensures (fun types => ∀ ty ∈ types, T.Holds ty) (types.mapM (Ty.rewrite f room)) :=
      K.mapM types fun ty hty => (ih ty).1 (h ty hty)
    have hsig {sig : Signature} (h : T.Sig sig) :=
      K.mapTypesM_holds h (fun ty => (ih ty).1) fun ty => (ih ty).2
    have hholds (ty : Ty) (h : T.Holds ty) : K.Ensures T.Holds (ty.rewrite f (room + 1)) := by
      cases ty with
      | unknown | invalid | prim p => exact K.pure h
      | cls c =>
        apply K.bind (hf c h)
        intro found hfound
        apply K.pure
        cases found with
        | none => exact h
        | some ty => exact hfound ty rfl
      | union members =>
        apply K.bind (hall (T.member h))
        intro members hmembers
        exact K.pure (T.unionAll hmembers)
      | generic base args =>
        obtain ⟨hbase, hargs⟩ := T.generic.mp h
        rw [Ty.rewrite]
        split
        · apply K.bind ((ih base).1 hbase)
          intro base hbase
          apply K.bind (hall hargs)
          intro args hargs
          exact K.pure (T.generic.mpr ⟨hbase, hargs⟩)
        · exact K.pure h
      | func main overloads =>
        obtain ⟨hmain, hoverloads⟩ := List.forall_mem_cons.mp (T.func.mp h)
        apply K.bind (hsig hmain)
        intro main hmain
        apply K.bind (K.mapM overloads fun sig hmem => hsig (hoverloads sig hmem))
        intro overloads hoverloads
        exact K.pure (T.func.mpr (List.forall_mem_cons.mpr ⟨hmain, hoverloads⟩))
      | array element =>
        apply K.bind ((ih element).1 (T.array.mp h))
        intro element helement
        exact K.pure (T.array.mpr helement)
      | tuple items =>
        obtain ⟨htuples, hitems⟩ := T.tuple.mp h
        apply K.bind (hall hitems)
        intro items hitems
        exact K.pure (T.tuple.mpr ⟨htuples, hitems⟩)
    refine ⟨hholds ty, fun h => ?_⟩
    cases ty with
    | tuple items =>
      apply K.bind (hall h)
      intro items hitems
      exact K.pure hitems
    | _ => exact K.imp (hholds _ (h _ (List.mem_singleton_self _))) fun _ hty => hty.returned

end Keeping

/-! Maps. -/

namespace OrderedMap

variable {α : Type} {P : α → Prop} {m : OrderedMap α}

/-- Every value has the property. -/
def All (P : α → Prop) (m : OrderedMap α) : Prop := ∀ e ∈ m.entries, P e.2

theorem All.empty : All P {} := nofun

theorem All.insert (h : m.All P) (key : String) {value : α} (hvalue : P value) :
    (m.insert key value).All P := by
  obtain ⟨entries⟩ := m
  simp only [All, OrderedMap.insert] at h ⊢
  induction entries with
  | nil => exact List.forall_mem_singleton.mpr hvalue
  | cons e entries ih =>
    obtain ⟨he, hrest⟩ := List.forall_mem_cons.mp h
    rw [insertInto]
    split
    · exact List.forall_mem_cons.mpr ⟨hvalue, hrest⟩
    · exact List.forall_mem_cons.mpr ⟨he, ih hrest⟩

theorem All.get? (h : m.All P) {key : String} {value : α} (hget : m.get? key = some value) :
    P value := by
  obtain ⟨entries⟩ := m
  simp only [All, OrderedMap.get?] at h hget
  induction entries with
  | nil => cases hget
  | cons e entries ih =>
    obtain ⟨he, hrest⟩ := List.forall_mem_cons.mp h
    rw [List.lookup_cons] at hget
    split at hget
    · exact Option.some_inj.mp hget ▸ he
    · exact ih hrest hget

theorem All.modify (h : m.All P) (key : String) {f : α → α} (hf : ∀ a, P a → P (f a)) :
    (m.modify key f).All P := by
  rw [OrderedMap.modify]
  cases hget : m.get? key with
  | none => exact h
  | some value => exact h.insert key (hf value (h.get? hget))

theorem All.filter (h : m.All P) (p : α → Bool) : (m.filter p).All P :=
  fun e he => h e (List.mem_filter.mp he).1

end OrderedMap

/-! Type arguments. -/

section

variable {T : TyInvariant}

theorem Bindings.apply_keeps {b : Bindings} (h : b.All T.Holds) (ty : Ty) :
    (T.Holds ty → T.Holds (b.apply ty)) ∧ (T.Returns ty → T.Returns (b.apply ty)) :=
  Keeping.values.rewrite_keeps (f := b.rewriter) (fun _ _ _ hget => h.get? hget) maxSubstDepth ty

theorem Bindings.ofArgs_all (names : List String) {args : List Ty}
    (h : ∀ arg ∈ args, T.Holds arg) : (Bindings.ofArgs names args).All T.Holds := by
  refine List.foldlRecOn (motive := (OrderedMap.All T.Holds ·)) names.zipIdx _ .empty
    fun b hb param _ => ?_
  apply hb.insert
  rw [typeArg]
  cases hget : args[param.2]? with
  | none => exact T.unknown
  | some arg => exact h arg (List.mem_of_getElem? hget)

namespace Unifier

/-- Steps of reading types whose bindings all have the property. -/
def keeping (T : TyInvariant) : Keeping (StateM Unifier) :=
  Keeping.values.state fun u => u.bindings.All T.Holds

theorem bind_keeps (name : String) {actual : Ty} (h : T.Holds actual) :
    (keeping T).Ensures (fun _ => True) (bind name actual) :=
  fun _ hu => ⟨trivial, hu.modify name fun _ hty => hty.join h⟩

variable (htuples : T.tuples)

include htuples

theorem unifyParts_keeps {unify : Ty → Ty → StateM Unifier Unit}
    (h : ∀ actual formal, T.Holds actual →
      (keeping T).Ensures (fun _ => True) (unify actual formal))
    {actual : Ty} (hactual : T.Holds actual) (formal : Ty) :
    (keeping T).Ensures (fun _ => True) (unifyParts unify actual formal) := by
  have hnone : (keeping T).Ensures (fun _ => True) (Pure.pure ()) := (keeping T).pure trivial
  cases formal with
  | cls c => exact bind_keeps c.name hactual
  | union members => exact (keeping T).forM trivial members fun member _ => h actual member hactual
  | array formalElement =>
    apply (keeping T).forM trivial
    intro member hmember
    have hholds := hactual.each member hmember
    cases member with
    | array element => exact h element formalElement (T.array.mp hholds)
    | _ => exact hnone
  | generic formalBase formalArgs =>
    apply (keeping T).forM trivial
    intro member hmember
    have hholds := hactual.each member hmember
    cases member with
    | generic base args =>
      obtain ⟨hbase, hargs⟩ := T.generic.mp hholds
      apply (keeping T).bind (h base formalBase hbase)
      intro _ _
      apply (keeping T).forM trivial
      intro arg harg
      exact h arg.1 _ (hargs arg.1 (List.fst_mem_of_mem_zipIdx harg))
    | _ => exact hnone
  | func formalMain _ =>
    apply (keeping T).forM trivial
    intro member hmember
    have hholds := hactual.each member hmember
    cases member with
    | func main overloads =>
      -- A type parameter in the result is bound to all values of the actual result together.
      have hret : T.Returns main.ret := (T.func.mp hholds main List.mem_cons_self).ret
      exact h _ _ (hret.holds htuples)
    | _ => exact hnone
  | _ => exact hnone

theorem unifyWithin_keeps (room : Nat) {actual : Ty} (h : T.Holds actual) (formal : Ty) :
    (keeping T).Ensures (fun _ => True) (unifyWithin room actual formal) := by
  induction room generalizing actual formal with
  | zero => exact (keeping T).pure trivial
  | succ room ih =>
    rw [unifyWithin]
    split
    · apply (keeping T).bind (P := fun _ => True) fun _ hu => ⟨trivial, hu⟩
      intro ok _
      cases ok with
      | false => exact (keeping T).pure trivial
      | true =>
        apply (keeping T).bind (unifyParts_keeps htuples (fun _ formal h => ih h formal) h formal)
        intro _ _
        exact fun _ hu => ⟨trivial, hu⟩
    · exact (keeping T).pure trivial

/-- Reading one actual type after another beside its formal type. -/
theorem unifyAll_keeps {pairs : List (Ty × Ty)} (h : ∀ pair ∈ pairs, T.Holds pair.1) :
    (keeping T).Ensures (fun _ => True) (pairs.forM fun pair => unify pair.1 pair.2) :=
  (keeping T).forM (P := fun _ => True) trivial pairs fun pair hpair =>
    unifyWithin_keeps htuples (maxSubstDepth + 1) (h pair hpair) pair.2

omit htuples in
theorem ofSignature_all (sig : Signature) : (ofSignature sig).bindings.All T.Holds :=
  List.foldlRecOn (motive := (OrderedMap.All T.Holds ·)) sig.typeParams _ .empty
    fun _ hb p _ => hb.insert p.name T.unknown

end Unifier

theorem Signature.unifier_all (htuples : T.tuples) (sig : Signature) {args : List Ty}
    (h : ∀ arg ∈ args, T.Holds arg) : (sig.unifier args).bindings.All T.Holds := by
  have hpairs : ∀ pair ∈ sig.pairs args, T.Holds pair.1 := by
    have hdrop : ∀ arg ∈ (if sig.colon then args.drop 1 else args), T.Holds arg := by
      intro arg harg
      split at harg
      · exact h arg (List.mem_of_mem_drop harg)
      · exact h arg harg
    intro pair hpair
    rcases List.mem_append.mp hpair with hpair | hpair
    · obtain ⟨i, hi, rfl⟩ := List.mem_iff_getElem.mp hpair
      rw [List.getElem_zipWith]
      exact hdrop _ (List.getElem_mem _)
    · cases hvararg : sig.vararg? with
      | none => simp [hvararg] at hpair
      | some v =>
        simp only [hvararg, Option.elim_some] at hpair
        obtain ⟨arg, harg, rfl⟩ := List.mem_map.mp hpair
        exact hdrop arg (List.mem_of_mem_drop harg)
  exact (Unifier.unifyAll_keeps htuples hpairs _ (Unifier.ofSignature_all sig)).2

/-! Reading class details. -/

/-- Computations that read class details. -/
def Reading.keeping : Keeping Reading := Keeping.values.state fun _ => True

theorem newClass_holds (name : String) :
    Reading.keeping.Ensures (fun c => T.Holds (.cls c)) (newClass name) :=
  fun _ _ => ⟨.cls_of_docFields rfl, trivial⟩

theorem Unifier.orBound_all {b : Bindings} (h : b.All T.Holds) (p : TypeParam) :
    Reading.keeping.Ensures (OrderedMap.All T.Holds) (orBound b p) := by
  rw [orBound]
  split
  · split
    · apply Reading.keeping.bind (newClass_holds _)
      intro c hc
      exact Reading.keeping.pure (h.insert p.name hc)
    · exact Reading.keeping.pure h
  · exact Reading.keeping.pure h

theorem Unifier.finish_all {u : Unifier} (h : u.bindings.All T.Holds) (sig : Signature) :
    Reading.keeping.Ensures (OrderedMap.All T.Holds) (u.finish sig) := by
  apply Reading.keeping.bind (P := OrderedMap.All T.Holds)
  · exact Reading.keeping.foldlM sig.typeParams (fun b hb p _ => orBound_all hb p) h
  · exact fun b hb => Reading.keeping.pure (hb.filter _)

theorem Signature.bindArgs?_all (htuples : T.tuples) (sig : Signature) {args : List Ty}
    (h : ∀ arg ∈ args, T.Holds arg) :
    Reading.keeping.Ensures (fun bindings? => ∀ b ∈ bindings?, b.All T.Holds)
      (sig.bindArgs? args) := by
  rw [bindArgs?]
  split
  · exact Reading.keeping.pure nofun
  · apply Reading.keeping.bind (Unifier.finish_all (sig.unifier_all htuples h) sig)
    intro b hb
    apply Reading.keeping.pure
    rintro _ ⟨⟩
    exact hb

end

/-! Aliases. -/

/-- The targets of all aliases have the property. -/
def Resolver.Keeps (r : Resolver) (T : TyInvariant) : Prop :=
  ∀ name target, r.alias? name = some target → T.Holds target

/-- Computations that expand aliases. -/
def Expanding.keeping : Keeping Expanding := Keeping.values.state fun _ => True

theorem Expanding.read_ensures {α : Type} {P : α → Prop} {act : Reading α}
    (h : Reading.keeping.Ensures P act) : Expanding.keeping.Ensures P (Expanding.read act) :=
  fun s _ => ⟨(h s.memo trivial).1, trivial⟩

namespace Resolver.Keeps

variable {T : TyInvariant} {r : Resolver} (h : r.Keeps T)

include h

theorem aliasTarget? (c : ClassTy) :
    Reading.keeping.Ensures (fun target? => ∀ ty ∈ target?, T.Holds ty) (c.aliasTarget? r) := by
  rw [ClassTy.aliasTarget?]
  split
  · exact Reading.keeping.pure nofun
  · cases htarget : r.alias? c.name with
    | some target =>
      apply Reading.keeping.pure
      rintro _ ⟨⟩
      exact h c.name target htarget
    | none =>
      apply Reading.keeping.bind (P := fun _ => True) fun _ _ => ⟨trivial, trivial⟩
      intro other? _
      cases other? with
      | none => exact Reading.keeping.pure nofun
      | some other =>
        apply Reading.keeping.pure
        intro ty hty
        split at hty
        · cases hty
        · exact h other ty hty

theorem expandWithin (room : Nat) {ty : Ty} (hty : T.Holds ty) :
    Expanding.keeping.Ensures T.Holds (expandWithin r room ty) := by
  induction room generalizing ty with
  | zero => exact Expanding.keeping.pure hty
  | succ room ih =>
    refine (Expanding.keeping.rewrite_keeps (fun c hc => ?_) maxSubstDepth ty).1 hty
    apply Expanding.keeping.bind (P := fun _ => True) fun _ _ => ⟨trivial, trivial⟩
    intro isNew _
    split
    · apply Expanding.keeping.bind (Expanding.read_ensures (h.aliasTarget? c))
      intro target? htarget
      cases target? with
      | none =>
        apply Expanding.keeping.pure
        rintro _ ⟨⟩
        exact hc
      | some target =>
        apply Expanding.keeping.bind (ih (htarget target rfl))
        intro expanded hexpanded
        apply Expanding.keeping.pure
        rintro _ ⟨⟩
        exact hexpanded.join hc
    · exact Expanding.keeping.pure nofun

theorem expandAliases {ty : Ty} (hty : T.Holds ty) :
    Reading.keeping.Ensures T.Holds (expandAliases r ty) :=
  fun memo _ => ⟨(h.expandWithin (r.aliasWeight + 2) hty { memo } trivial).1, trivial⟩

end Resolver.Keeps

/-! The self type. -/

namespace Keeping

variable {m : Type → Type} [Monad m] [LawfulMonad m] (K : Keeping m) {T : TyInvariant}

/-- Computations that find out the type of a receiver at most once. -/
def withReceiver (T : TyInvariant) : Keeping (WithReceiver m) :=
  K.state fun known? => ∀ ty ∈ known?, T.Holds ty

omit [LawfulMonad m] in
theorem receiverTy_holds {compute : m Ty} (h : K.Ensures T.Holds compute) :
    (K.withReceiver T).Ensures T.Holds (receiverTy compute) := by
  apply (K.withReceiver T).bind (K.get_ensures _)
  intro known? hknown
  cases known? with
  | some ty => exact (K.withReceiver T).pure (hknown ty rfl)
  | none =>
    apply (K.withReceiver T).bind (K.lift_ensures _ h)
    intro ty hty
    have hset : ∀ found ∈ some ty, T.Holds found := by
      rintro _ ⟨⟩
      exact hty
    apply (K.withReceiver T).bind (K.set_ensures _ hset)
    exact fun _ _ => (K.withReceiver T).pure hty

theorem substitute_self_keeps {compute : m Ty} (hcompute : K.Ensures T.Holds compute) (ty : Ty) :
    (T.Holds ty →
      (K.withReceiver T).Ensures T.Holds (ty.substitute (selfRewriter compute))) ∧
    (T.Returns ty →
      (K.withReceiver T).Ensures T.Returns (ty.substitute (selfRewriter compute))) := by
  refine (K.withReceiver T).rewrite_keeps (fun c _ => ?_) maxSubstDepth ty
  simp only [selfRewriter]
  split
  · apply (K.withReceiver T).map (K.receiverTy_holds hcompute)
    rintro ty hty _ ⟨⟩
    exact hty
  · exact (K.withReceiver T).pure nofun

theorem withSelf_returns {compute : m Ty} (hcompute : K.Ensures T.Holds compute) {ty : Ty}
    (h : T.Returns ty) : K.Ensures T.Returns (ty.withSelf compute) :=
  K.run'_ensures _ ((K.substitute_self_keeps hcompute ty).2 h) nofun

end Keeping

end LuaTypes
