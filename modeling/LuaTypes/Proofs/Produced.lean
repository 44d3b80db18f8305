import LuaTypes.Proofs.Restored
import LuaTypes.Proofs.WellFormedPrograms

/-!
Everything that makes types makes well-formed ones: unions, rewriting, inference of type arguments,
restoring stored types, and requests.
-/

namespace LuaTypes

/-- Whatever is stored, what is restored from it is well formed. -/
theorem StoredTy.toTy_wellFormed (ty : StoredTy) :
    Reading.keeping.Ensures Ty.WellFormed ty.toTy :=
  Ty.WellFormed.restorable.toTy (fun _ _ => ⟨trivial, trivial⟩) ty

/-- Well-formed types are all that is made of well-formed types: by joining them and by collecting
them in a builder, by putting in type arguments, expanding aliases and putting in the self type, by
inferring type arguments, by restoring stored types of any kind, and by requests in any number
against a program with well-formed comments and any index of well-formed types, such as its own. -/
theorem Ty.WellFormed.produced :
    (∀ a b : Ty, a.WellFormed → b.WellFormed → (a.join b).WellFormed) ∧
    (∀ types : List Ty, (∀ ty ∈ types, ty.WellFormed) →
      let b : UnionBuilder := types.foldl UnionBuilder.add {}
      (Ty.unionAll types).WellFormed ∧ b.type.WellFormed ∧ ∀ ty ∈ b.type?, ty.WellFormed) ∧
    (∀ (b : Bindings) (ty : Ty), b.WellFormed → ty.WellFormed → (b.apply ty).WellFormed) ∧
    (∀ (r : Resolver) (s : Expansion) (ty : Ty), r.WellFormed → ty.WellFormed →
      (expand r ty s).1.WellFormed) ∧
    (∀ (m : Type → Type) [Monad m] [LawfulMonad m] (K : Keeping m) (receiver : m Ty)
      (known? : Option Ty) (ty : Ty), K.Ensures Ty.WellFormed receiver →
      (∀ self ∈ known?, self.WellFormed) → ty.WellFormed →
      K.Ensures (fun r => r.1.WellFormed ∧ ∀ self ∈ r.2, self.WellFormed)
        ((ty.substitute (selfRewriter receiver)).run known?)) ∧
    (∀ (sig : Signature) (pairs : List (Ty × Ty)), (∀ pair ∈ pairs, pair.1.WellFormed) →
      let u := ((pairs.forM fun pair => Unifier.unify pair.1 pair.2).run (.ofSignature sig)).2
      u.bindings.WellFormed ∧
        ∀ (other : Signature) (memo : ClassMemo), (u.finish other memo).1.WellFormed) ∧
    (∀ (stored : StoredTy) (memo : ClassMemo), (stored.toTy memo).1.WellFormed) ∧
    (∀ (p : Program) (ready : Bool), p.WellFormed →
      Index.WellFormed { Index.ofProgram p with ready }) ∧
    ∀ (p : Program) (ix : Index) (settings : Settings) (resolveModule? : String → Option FileId)
      (cancelled : Bool) (memo : ClassMemo) (picks : List (NodeId × Pick)), p.WellFormed →
      ix.WellFormed →
      let env : Env := ⟨p, ix, settings, resolveModule?, cancelled⟩
      ∀ ty ∈ ((picks.mapM fun q => inferPick env q.1 q.2) { memo }).1, ty.WellFormed := by
  refine ⟨fun _ _ ha hb => ha.join hb, fun types h => ?_,
    fun _ ty hb hty => (Bindings.apply_keeps (T := wellFormed) hb ty).1 hty,
    fun r s _ hr hty => ?_, fun _ _ _ K _ known? ty hreceiver hknown hty => ?_,
    fun sig pairs hpairs => ?_, fun stored memo => (stored.toTy_wellFormed memo trivial).1,
    fun _ ready h => Index.Keeps.ofProgram h.keeps ready,
    fun p ix settings resolveModule? cancelled memo picks h hix => ?_⟩
  · have hproper : UnionBuilder.Proper (types.foldl UnionBuilder.add {}).members := .collected h
    exact ⟨.unionAll h, hproper.type_wellFormed, fun _ hty => hproper.type?_wellFormed hty⟩
  · have hkeeps : r.Keeps wellFormed := hr
    exact (hkeeps.expandWithin (r.aliasWeight + 2) hty s trivial).1
  · exact (K.substitute_self_keeps (T := wellFormed) hreceiver ty).1 hty known? hknown
  · have hpairs : ∀ pair ∈ pairs, wellFormed.Holds pair.1 := hpairs
    have hbindings := (Unifier.unifyAll_keeps trivial hpairs _ (Unifier.ofSignature_all sig)).2
    exact ⟨hbindings, fun other memo => (Unifier.finish_all hbindings other memo trivial).1⟩
  · intro env
    have henv : env.WellFormed := .intro h hix settings resolveModule? cancelled
    have hpicks : wellFormed.infer.Ensures (fun types => ∀ ty ∈ types, ty.WellFormed)
        (picks.mapM fun q => inferPick env q.1 q.2) :=
      wellFormed.infer.mapM picks fun q _ =>
        wellFormed.infer.imp (henv.inferPick q.1 q.2) fun _ hty => hty.holds trivial
    exact (hpicks _ (wellFormed.state_new memo)).1

/-- The program `local x` whose comment says `number?`. -/
def Draft.optional : Draft where
  nodes := #[.nameDef "x", .localDef [0] [], .block [1]]
  docs := ({} : Std.HashMap NodeId Doc).insert 0 { type? := some (.union [.number, .nil]) }
  files := #[⟨"optional.lua", 2, false⟩]

/-- A type parameter of a union is bound to a union with a member of that union, and a comment holds
a union. -/
theorem Ty.WellFormed.produced_optional :
    (Bindings.apply (OrderedMap.insert {} "T" (.union [.number, .nil]))
      (.union [.cls (.declared "T" {}), .number])).WellFormed ∧
    let env : Env := ⟨Draft.optional.build, { Index.ofProgram Draft.optional.build with ready := true },
      {}, Draft.optional.build.resolveModule?, false⟩
    ∀ ty ∈ (([(0, .nth 0)].mapM fun q => inferPick env q.1 q.2) { memo := {} }).1, ty.WellFormed := by
  have hoptional : (Ty.union [.number, .nil]).WellFormed := .pair (.prim _) (.prim _) rfl
  have hparam : (Ty.union [.cls (.declared "T" {}), .number]).WellFormed :=
    .pair (.cls_of_docFields rfl) (.prim _) rfl
  have hprogram : Draft.optional.build.WellFormed := by
    intro id doc hdoc ty hty
    change Draft.optional.docs[id]? = some doc at hdoc
    rw [Draft.optional, Std.HashMap.getElem?_insert] at hdoc
    split at hdoc
    · obtain rfl := Option.some_inj.mp hdoc
      obtain rfl := List.mem_singleton.mp hty
      exact hoptional
    · simp at hdoc
  exact ⟨produced.2.2.1 _ _ (.insert .empty "T" hoptional) hparam,
    produced.2.2.2.2.2.2.2.2 _ _ {} _ false {} [(0, .nth 0)] hprogram
      (produced.2.2.2.2.2.2.2.1 _ true hprogram)⟩

end LuaTypes
