import LuaTypes.Proofs.BoundNames
import LuaTypes.Proofs.TypeArguments

/-!
Inference undoes substitution. When the arguments of a call are the formal types with types in place
of the type parameters, just these types are inferred.
-/

namespace LuaTypes

/-! Bindings that agree. -/

section

variable {b b' : Bindings} {depth : Nat}

theorem Signature.replaced_congr {sig : Signature}
    (h : ∀ ty ∈ sig.types, ty.replaced b depth = ty.replaced b' depth) :
    sig.replaced b depth = sig.replaced b' depth := by
  obtain ⟨colon, params, vararg?, ret, typeParams⟩ := sig
  have hparams : Field.replacedAll b depth params = Field.replacedAll b' depth params := by
    rw [Field.replacedAll_eq_map, Field.replacedAll_eq_map]
    refine List.map_congr_left fun f hf => ?_
    rw [h f.ty (List.mem_append_left _ (List.mem_map_of_mem hf))]
  have hvararg : Ty.replacedOption b depth vararg? = Ty.replacedOption b' depth vararg? := by
    cases vararg? with
    | none => rfl
    | some v =>
      have hv := h v (List.mem_append_right _ (List.mem_cons_of_mem _ List.mem_cons_self))
      exact congrArg some hv
  rw [replaced, replaced, hparams, hvararg, h ret (List.mem_append_right _ List.mem_cons_self)]

/-- What a name is bound to matters only where the type mentions it. -/
theorem Ty.replaced_congr {ty : Ty} (h : ∀ c, ty.Mentions c → b.get? c.name = b'.get? c.name) :
    ty.replaced b depth = ty.replaced b' depth := by
  induction ty using induction_walked generalizing depth with
  | step ty ih =>
    by_cases hbelow : maxSubstDepth < depth
    · rw [replaced_of_lt b hbelow, replaced_of_lt b' hbelow]
    have hparts : ∀ part ∈ ty.walked true,
        part.replaced b (depth + 1) = part.replaced b' (depth + 1) := fun part hpart =>
      ih part hpart fun c hc => h c (.part hpart hc)
    have hall (types : List Ty)
        (h : ∀ ty ∈ types, ty.replaced b (depth + 1) = ty.replaced b' (depth + 1)) :
        replacedAll b (depth + 1) types = replacedAll b' (depth + 1) types := by
      rw [replacedAll_eq_map, replacedAll_eq_map, List.map_congr_left h]
    cases ty with
    | unknown | invalid | prim p => rw [replaced, replaced]
    | cls c => rw [replaced, replaced, h c .here]
    | union members => rw [replaced, replaced, hall members hparts]
    | generic base args =>
      obtain ⟨hbase, hargs⟩ := List.forall_mem_cons.mp hparts
      rw [replaced, replaced, hbase, hall args hargs]
    | func main overloads =>
      have hsigs : ∀ sig ∈ main :: overloads,
          sig.replaced b (depth + 1) = sig.replaced b' (depth + 1) := fun sig hsig =>
        Signature.replaced_congr fun ty hty => hparts ty (List.mem_flatMap.mpr ⟨sig, hsig, hty⟩)
      obtain ⟨hmain, hoverloads⟩ := List.forall_mem_cons.mp hsigs
      rw [replaced, replaced, hmain, Signature.replacedAll_eq_map, Signature.replacedAll_eq_map,
        List.map_congr_left hoverloads]
    | array element => rw [replaced, replaced, hparts element (List.mem_singleton_self _)]
    | tuple items => rw [replaced, replaced, hall items hparts]

end

/-! Formal types. -/

/-- The type is made of classes met by name, primitive types, arrays and generic types. -/
inductive Ty.IsFormal : Ty → Prop
  | cls (name : String) (cell : Nat) : IsFormal (.cls (.deferred name cell))
  | prim (p : Prim) : IsFormal (.prim p)
  | array {element : Ty} : element.IsFormal → IsFormal (.array element)
  | generic {base : Ty} {args : List Ty} :
    base.IsFormal → (∀ arg ∈ args, arg.IsFormal) → IsFormal (.generic base args)

/-- Every type parameter is assigned a type that is no sentinel, and nothing else is. -/
structure Bindings.Assigns (s : Bindings) (sig : Signature) : Prop where
  names (name : String) : (s.get? name).isSome = true ↔ name ∈ sig.typeParams.map (·.name)
  valid (name : String) (ty : Ty) : s.get? name = some ty → ty.isInvalid = false

/-- Type arguments are read beside the arguments at their places. -/
theorem mem_zipIdx_flatMap {α : Type} {args : List Ty} {f : Ty → Ty} {read : Ty → Ty → List α}
    {e : α} : (e ∈ (args.map f).zipIdx.flatMap fun (arg, i) => read arg (typeArg args i)) ↔
      ∃ arg ∈ args, e ∈ read (f arg) arg := by
  rw [List.mem_flatMap]
  constructor
  · rintro ⟨⟨_, i⟩, hmem, he⟩
    rw [List.mk_mem_zipIdx_iff_getElem?, List.getElem?_map] at hmem
    obtain ⟨arg, harg, rfl⟩ := Option.map_eq_some_iff.mp hmem
    simp only [typeArg, harg, Option.getD_some] at he
    exact ⟨arg, List.mem_of_getElem? harg, he⟩
  · rintro ⟨arg, hmem, he⟩
    obtain ⟨i, harg⟩ := List.mem_iff_getElem?.mp hmem
    refine ⟨(f arg, i), ?_, ?_⟩
    · rw [List.mk_mem_zipIdx_iff_getElem?, List.getElem?_map, harg, Option.map_some]
    · simpa only [typeArg, harg, Option.getD_some] using he

namespace Ty.IsFormal

variable {s : Bindings} {formal : Ty} (h : formal.IsFormal)
  (hs : ∀ name ty, s.get? name = some ty → ty.isInvalid = false)

include h hs

theorem isInvalid_replaced (depth : Nat) : (formal.replaced s depth).isInvalid = false := by
  rw [replaced.eq_def]
  split
  · cases h <;> rfl
  · cases h with
    | cls name cell =>
      cases hget : s.get? name with
      | none => simp [hget, ClassTy.deferred, isInvalid]
      | some ty => simpa [hget, ClassTy.deferred] using hs name ty hget
    | _ => rfl

/-- Beside a formal type in which types are substituted, each class node of the formal type finds
what takes its place. -/
theorem mem_evidence_iff {room depth : Nat} (hnests : formal.NestsWithin room)
    (hroom : room + depth = maxSubstDepth + 1) {e : String × Ty} :
    e ∈ Unifier.evidence room (formal.replaced s depth) formal ↔
      ∃ c, formal.Mentions c ∧ e = (c.name, (s.get? c.name).getD (.cls c)) := by
  induction room generalizing formal depth with
  | zero => exact hnests.elim
  | succ room ih =>
    have hbelow : ¬maxSubstDepth < depth := by omega
    have hroom' : room + (depth + 1) = maxSubstDepth + 1 := by omega
    rw [Unifier.evidence, h.isInvalid_replaced hs depth]
    change e ∈ Unifier.partEvidence _ _ _ ↔ _
    rw [replaced.eq_def, if_neg hbelow]
    cases h with
    | cls name cell => simp [Unifier.partEvidence]
    | prim p => simp [Unifier.partEvidence]
    | @array element helement =>
      have hread := ih helement (hnests element (List.mem_singleton_self _)) hroom'
      simpa [Unifier.partEvidence, each] using hread
    | @generic base args hbase hargs =>
      have hread : ∀ part ∈ base :: args,
          (e ∈ Unifier.evidence room (part.replaced s (depth + 1)) part ↔
            ∃ c, part.Mentions c ∧ e = (c.name, (s.get? c.name).getD (.cls c))) :=
        fun part hpart => ih (List.forall_mem_cons.mpr ⟨hbase, hargs⟩ part hpart)
          (hnests part hpart) hroom'
      obtain ⟨hreadBase, hreadArgs⟩ := List.forall_mem_cons.mp hread
      simp only [Unifier.partEvidence, each, replacedAll_eq_map, List.flatMap_singleton,
        List.mem_append, mem_zipIdx_flatMap, mentions_generic]
      rw [hreadBase]
      constructor
      · rintro (⟨c, hc, he⟩ | ⟨arg, harg, he⟩)
        · exact ⟨c, .inl hc, he⟩
        · obtain ⟨c, hc, he⟩ := (hreadArgs arg harg).mp he
          exact ⟨c, .inr ⟨arg, harg, hc⟩, he⟩
      · rintro ⟨c, hc | ⟨arg, harg, hc⟩, he⟩
        · exact .inl ⟨c, hc, he⟩
        · exact .inr ⟨arg, harg, (hreadArgs arg harg).mpr ⟨c, hc, he⟩⟩

end Ty.IsFormal

/-! Calls. -/

/-- A join of copies of a type is the type. -/
theorem Ty.foldl_join_of_forall_eq {types : List Ty} {ty : Ty} (hvalid : ty.isInvalid = false)
    (h : ∀ other ∈ types, other = ty) (hne : types ≠ []) : types.foldl join .unknown = ty := by
  obtain ⟨first, rest, rfl⟩ := List.exists_cons_of_ne_nil hne
  obtain ⟨rfl, hrest⟩ := List.forall_mem_cons.mp h
  rw [List.foldl_cons, join_of_isInvalid_left rfl hvalid]
  refine List.foldlRecOn (motive := (· = first)) rest join rfl fun _ hjoined other hother => ?_
  rw [hjoined, hrest other hother, join_self]

namespace Signature

/-- The formal types of a call with so many arguments for the vararg type, if there is one. -/
def formals (sig : Signature) (further : Nat) : List Ty :=
  sig.params.map (·.ty) ++ sig.vararg?.elim [] (List.replicate further)

theorem forall_formals {sig : Signature} {P : Ty → Prop} (hparams : ∀ p ∈ sig.params, P p.ty)
    (hvararg : ∀ v, sig.vararg? = some v → P v) (further : Nat) :
    ∀ formal ∈ sig.formals further, P formal := by
  refine List.forall_mem_append.mpr ⟨List.forall_mem_map.mpr hparams, fun formal hformal => ?_⟩
  cases hv : sig.vararg? with
  | none =>
    rw [hv] at hformal
    cases hformal
  | some v =>
    rw [hv] at hformal
    exact List.eq_of_mem_replicate hformal ▸ hvararg v hv

/-- Arguments that have the formal types, where types are substituted. -/
def substitutedArgs (sig : Signature) (s : Bindings) (receiver : Ty) (further : Nat) : List Ty :=
  (if sig.colon then [receiver] else []) ++ (sig.formals further).map s.apply

/-- The formal types, each beside the type that it is when types are substituted. -/
def substitutedPairs (sig : Signature) (s : Bindings) (further : Nat) : List (Ty × Ty) :=
  (sig.formals further).map fun formal => (s.apply formal, formal)

/-- A formal type mentions the name. -/
def Occurs (sig : Signature) (further : Nat) (name : String) : Prop :=
  ∃ formal ∈ sig.formals further, ∃ c, formal.Mentions c ∧ c.name = name

variable (sig : Signature) (s : Bindings) (receiver : Ty) (further : Nat)

/-- Each argument is read beside its own formal type. -/
theorem pairs_substitutedArgs :
    sig.pairs (sig.substitutedArgs s receiver further) = sig.substitutedPairs s further := by
  have hargs : (if sig.colon then (sig.substitutedArgs s receiver further).drop 1
      else sig.substitutedArgs s receiver further) = (sig.formals further).map s.apply := by
    rw [substitutedArgs]
    cases sig.colon <;> rfl
  have hfixed (params : List Field) (rest : List Ty) :
      (params.map (fun p => s.apply p.ty) ++ rest).zipWith (fun actual p => (actual, p.ty)) params
        = params.map fun p => (s.apply p.ty, p.ty) := by
    induction params with
    | nil => rw [List.zipWith_nil_right]; rfl
    | cons p params ih => exact congrArg _ ih
  rw [pairs, hargs, substitutedPairs, formals, List.map_append, List.map_append, List.map_map,
    List.map_map]
  change (List.map (fun p => s.apply p.ty) sig.params ++ _).zipWith _ _ ++ _ = _
  rw [hfixed]
  congr 1
  cases sig.vararg? with
  | none => rfl
  | some v =>
    rw [Option.elim_some, List.drop_left' (List.length_map _), Option.elim_some,
      List.map_replicate, List.map_replicate, List.map_replicate]

variable {sig s} {further} (hs : s.Assigns sig)
  (hformals : ∀ formal ∈ sig.formals further, formal.IsFormal ∧ formal.NestsWithin maxSubstDepth)
  {name : String} {bound : Ty} (hbound : s.get? name = some bound)

include hs hformals hbound

/-- Only the type that takes the place of a type parameter stands beside it in such a call. -/
theorem mem_found_formals {ty : Ty} :
    ty ∈ found (sig.substitutedPairs s further) name ↔ sig.Occurs further name ∧ ty = bound := by
  have hread (formal : Ty) (h : formal ∈ sig.formals further) :
      (name, ty) ∈ Unifier.evidence maxSubstDepth (s.apply formal) formal ↔
        (∃ c, formal.Mentions c ∧ c.name = name) ∧ ty = bound := by
    obtain ⟨hformal, hnests⟩ := hformals formal h
    rw [Bindings.apply_eq_replaced, hformal.mem_evidence_iff hs.valid hnests rfl]
    constructor
    · rintro ⟨c, hc, heq⟩
      obtain ⟨rfl, rfl⟩ := Prod.mk.inj heq
      exact ⟨⟨c, hc, rfl⟩, by rw [hbound, Option.getD_some]⟩
    · rintro ⟨⟨c, hc, rfl⟩, rfl⟩
      exact ⟨c, hc, by rw [hbound, Option.getD_some]⟩
  rw [mem_found_iff]
  constructor
  · rintro ⟨_, hpair, he⟩
    obtain ⟨formal, hformal, rfl⟩ := List.mem_map.mp hpair
    obtain ⟨hc, hty⟩ := (hread formal hformal).mp he
    exact ⟨⟨formal, hformal, hc⟩, hty⟩
  · rintro ⟨⟨formal, hformal, hc⟩, hty⟩
    exact ⟨_, List.mem_map_of_mem hformal, (hread formal hformal).mpr ⟨hc, hty⟩⟩

theorem learned_of_occurs (hoccurs : sig.Occurs further name) :
    sig.learned (sig.substitutedPairs s further) name = bound := by
  have hname : name ∈ sig.typeParams.map (·.name) := (hs.names name).mp (hbound ▸ rfl)
  rw [learned_eq, if_pos hname]
  refine Ty.foldl_join_of_forall_eq (hs.valid name bound hbound) (fun ty hty => ?_) ?_
  · exact ((mem_found_formals hs hformals hbound).mp hty).2
  · exact List.ne_nil_of_mem ((mem_found_formals hs hformals hbound).mpr ⟨hoccurs, rfl⟩)

theorem learned_of_not_occurs (hoccurs : ¬sig.Occurs further name) :
    sig.learned (sig.substitutedPairs s further) name = .unknown := by
  have hnone : found (sig.substitutedPairs s further) name = [] :=
    List.eq_nil_iff_forall_not_mem.mpr fun ty hty =>
      hoccurs ((mem_found_formals hs hformals hbound).mp hty).1
  rw [learned_eq, hnone]
  split <;> rfl

omit hs hformals hbound

/-- The bound that counts is that of the only type parameter of the name. -/
theorem boundOf?_of_nodup (h : (sig.typeParams.map (·.name)).Nodup) {p : TypeParam}
    (hp : p ∈ sig.typeParams) : Unifier.boundOf? sig.typeParams p.name = p.bound? := by
  cases hbound : Unifier.boundOf? sig.typeParams p.name with
  | none => exact (Unifier.bound?_of_boundOf? hbound hp rfl).symm
  | some bound =>
    obtain ⟨q, hq, hname, hqbound⟩ := Unifier.exists_of_boundOf? hbound
    rw [← List.inj_on_of_nodup_map h hq hp hname, hqbound]

/-- From arguments that are the formal types, where types are substituted for the type parameters,
just these types are inferred for the parameters that occur. -/
theorem inferred_substitutedArgs (hgeneric : sig.isGeneric = true)
    (hnames : (sig.typeParams.map (·.name)).Nodup)
    (hparams : ∀ p ∈ sig.params, p.ty.IsFormal ∧ p.ty.NestsWithin maxSubstDepth)
    (hvararg : ∀ v, sig.vararg? = some v → v.IsFormal ∧ v.NestsWithin maxSubstDepth)
    (hs : s.Assigns sig) (receiver : Ty) (further : Nat) (memo : ClassMemo) :
    ∃ b, (sig.bindArgs? (sig.substitutedArgs s receiver further) memo).1 = some b ∧
      (∀ p ∈ sig.typeParams, sig.Occurs further p.name → b.get? p.name = s.get? p.name) ∧
      (∀ p ∈ sig.typeParams, ¬sig.Occurs further p.name →
        ∃ cell, b.get? p.name = p.bound?.map fun bound => .cls (.deferred bound cell)) ∧
      (∀ name, name ∉ sig.typeParams.map (·.name) → b.get? name = none) ∧
      ((∀ c, sig.ret.Mentions c → c.name ∈ sig.typeParams.map (·.name) →
        sig.Occurs further c.name) → b.apply sig.ret = s.apply sig.ret) := by
  have hformals := forall_formals hparams hvararg further
  obtain ⟨b, hbind, hget⟩ :=
    sig.bindArgs?_spec hgeneric (sig.substitutedArgs s receiver further) memo
  simp only [pairs_substitutedArgs] at hget
  have hassigned (p : TypeParam) (hp : p ∈ sig.typeParams) :
      p.name ∈ sig.typeParams.map (·.name) ∧ ∃ bound, s.get? p.name = some bound := by
    have hname : p.name ∈ sig.typeParams.map (·.name) := List.mem_map_of_mem hp
    exact ⟨hname, Option.isSome_iff_exists.mp ((hs.names p.name).mpr hname)⟩
  have hoccurring (p : TypeParam) (hp : p ∈ sig.typeParams) (hoccurs : sig.Occurs further p.name) :
      b.get? p.name = s.get? p.name := by
    obtain ⟨cell, hkept⟩ := hget p.name
    obtain ⟨hname, bound, hbound⟩ := hassigned p hp
    have hvalid := hs.valid p.name bound hbound
    rw [hkept, if_pos hname, learned_of_occurs hs hformals hbound hoccurs, hvalid, hbound]
    rfl
  have hother (name : String) (hname : name ∉ sig.typeParams.map (·.name)) :
      b.get? name = none := by
    obtain ⟨cell, hkept⟩ := hget name
    rw [hkept, if_neg hname]
  refine ⟨b, hbind, hoccurring, fun p hp hoccurs => ?_, hother, fun hret => ?_⟩
  · obtain ⟨cell, hkept⟩ := hget p.name
    obtain ⟨hname, bound, hbound⟩ := hassigned p hp
    refine ⟨cell, ?_⟩
    rw [hkept, if_pos hname, learned_of_not_occurs hs hformals hbound hoccurs,
      boundOf?_of_nodup hnames hp]
    rfl
  · rw [Bindings.apply_eq_replaced, Bindings.apply_eq_replaced]
    refine Ty.replaced_congr fun c hc => ?_
    by_cases hname : c.name ∈ sig.typeParams.map (·.name)
    · obtain ⟨p, hp, hpname⟩ := List.mem_map.mp hname
      rw [← hpname]
      exact hoccurring p hp (hpname ▸ hret c hc hname)
    · rw [hother c.name hname, Option.not_isSome_iff_eq_none.mp (mt (hs.names c.name).mp hname)]

/-- A method whose parameters nest two type parameters; a third one occurs nowhere. -/
def pairing : Signature where
  colon := true
  params := [⟨"entries", .generic (.cls (.deferred "Map" 0))
    [.cls (.deferred "K" 1), .array (.cls (.deferred "V" 2))]⟩]
  vararg? := some (.cls (.deferred "V" 3))
  ret := .generic (.cls (.deferred "Map" 4)) [.cls (.deferred "V" 5), .cls (.deferred "K" 6)]
  typeParams := [⟨"K", none⟩, ⟨"V", some "Base"⟩, ⟨"W", some "Base"⟩]

theorem inferred_substitutedArgs_pairing :
    let s : Bindings :=
      ⟨[("K", .union [.string, .number]), ("V", .array .boolean), ("W", .nil)]⟩
    pairing.isGeneric = true ∧ (pairing.typeParams.map (·.name)).Nodup ∧
    (∀ p ∈ pairing.params, p.ty.IsFormal ∧ p.ty.NestsWithin maxSubstDepth) ∧
    (∀ v, pairing.vararg? = some v → v.IsFormal ∧ v.NestsWithin maxSubstDepth) ∧
    s.Assigns pairing ∧
    ∃ b, (pairing.bindArgs? (pairing.substitutedArgs s .unknown 2) {}).1 = some b ∧
      b.get? "K" = some (.union [.string, .number]) ∧ b.get? "V" = some (.array .boolean) ∧
      (∃ cell, b.get? "W" = some (.cls (.deferred "Base" cell))) ∧ b.get? "Map" = none ∧
      b.apply pairing.ret
        = .generic (.cls (.deferred "Map" 4)) [.array .boolean, .union [.string, .number]] := by
  intro s
  have hparams : ∀ p ∈ pairing.params, p.ty.IsFormal ∧ p.ty.NestsWithin maxSubstDepth := by
    refine List.forall_mem_singleton.mpr ⟨?_, by decide⟩
    refine .generic (.cls "Map" 0) (List.forall_mem_cons.mpr ⟨.cls "K" 1, ?_⟩)
    exact List.forall_mem_singleton.mpr (.array (.cls "V" 2))
  have hvararg : ∀ v, pairing.vararg? = some v → v.IsFormal ∧ v.NestsWithin maxSubstDepth := by
    rintro v ⟨⟩
    exact ⟨.cls "V" 3, by decide⟩
  have hs : s.Assigns pairing := by
    refine ⟨OrderedMap.isSome_get?_iff s, fun name ty hget => ?_⟩
    refine OrderedMap.All.get? (P := fun ty => ty.isInvalid = false) ?_ hget
    simp only [OrderedMap.All, s, List.forall_mem_cons]
    exact ⟨rfl, rfl, rfl, List.forall_mem_nil _⟩
  have hK : pairing.Occurs 2 "K" :=
    ⟨_, List.mem_cons_self, .deferred "K" 1, by simp, rfl⟩
  have hV : pairing.Occurs 2 "V" :=
    ⟨_, List.mem_cons_self, .deferred "V" 2, by simp, rfl⟩
  have hW : ¬pairing.Occurs 2 "W" := by
    rintro ⟨formal, hformal, c, hc, hname⟩
    have hcls : c.name = "Map" ∨ c.name = "K" ∨ c.name = "V" := by
      simp only [formals, pairing, List.map_cons, List.map_nil, Option.elim_some,
        List.replicate, List.cons_append, List.nil_append, List.mem_cons, List.not_mem_nil,
        or_false, or_self] at hformal
      rcases hformal with rfl | rfl
      · simp only [Ty.mentions_generic, Ty.mentions_cls, List.mem_cons, List.not_mem_nil, or_false,
          exists_eq_or_imp, exists_eq_left, Ty.mentions_array] at hc
        rcases hc with rfl | rfl | rfl <;> simp [ClassTy.deferred]
      · rw [Ty.mentions_cls] at hc
        simp [← hc, ClassTy.deferred]
    simp [hname] at hcls
  obtain ⟨b, hbind, hoccurring, hbounded, hother, hret⟩ :=
    inferred_substitutedArgs rfl (by decide) hparams hvararg hs .unknown 2 {}
  refine ⟨rfl, by decide, hparams, hvararg, hs, b, hbind, hoccurring ⟨"K", none⟩ ?_ hK,
    hoccurring ⟨"V", some "Base"⟩ ?_ hV, hbounded ⟨"W", some "Base"⟩ ?_ hW,
    hother "Map" (by decide), (hret fun c hc hname => ?_).trans rfl⟩
  · decide
  · decide
  · decide
  · simp only [pairing, Ty.mentions_generic, Ty.mentions_cls, List.mem_cons, List.not_mem_nil,
      or_false, exists_eq_or_imp, exists_eq_left] at hc
    rcases hc with rfl | rfl | rfl
    · exact absurd hname (by decide)
    · exact hV
    · exact hK

end Signature

end LuaTypes
