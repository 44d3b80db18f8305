import LuaTypes.Proofs.Simulation

/-!
Mirrored requests build the same member chains, and leave no chain half made.
-/

namespace LuaTypes

theorem Infer.read_bind {α β : Type} (x : Reading α) (f : α → Reading β) :
    Infer.read (x >>= f) = Infer.read x >>= fun a => Infer.read (f a) := rfl

namespace Simulation

variable {env : Env} {ix : Index} (S : Simulation env ix)

theorem originMembers_rename (c : ClassTy) :
    originMembers (env.withIndex ix) (c.rename S.ρ)
      = (originMembers env c).map (MemberDecl.rename S.ρ) := by
  obtain ⟨name, var, flags, origin, details⟩ := c
  cases origin with
  | named => rfl
  | literal file node count => simp [originMembers, Origin.rename, MemberDecl.rename, MemberOrigin.rename, Function.comp_def]
  | docTable fields =>
    simp [originMembers, Origin.rename, MemberDecl.rename, MemberOrigin.rename, List.zipIdx_map]

theorem fillChain_rename (chain : MemberChain MemberDecl) (aliases : List String) :
    fillChain (env.withIndex ix) (chain.rename S.ρ) aliases
      = (fillChain env chain aliases).rename S.ρ := by
  have haliases : aliases.flatMap ix.classMembers
      = (aliases.flatMap env.index.classMembers).map (MemberDecl.rename S.ρ) := by
    rw [List.map_flatMap]
    exact congrArg (List.flatMap · _) (funext S.classMembers)
  have hextend := fun decls chain =>
    MemberChain.foldl_add_rename S.ρ decls (p := fun _ => false) (fun _ => rfl) chain
  have hdeclare := fun decls chain =>
    MemberChain.foldl_add_rename S.ρ decls (MemberDecl.rename_authoritative S.ρ) chain
  simp only [fillChain, MemberChain.rename_cls, S.originMembers_rename, hextend, haliases]
  rw [ClassTy.rename_name, S.classMembers, hdeclare, hextend]

section

variable {L : Lifting Infer Infer}

/-- Computations that read the details of a class alike. -/
def ReadsAlike (L : Lifting Infer Infer) : Prop :=
  ∀ c : ClassTy, L.Maps id (Infer.read (c.readDetails env.resolver))
    (Infer.read ((c.rename S.ρ).readDetails (env.withIndex ix).resolver))

variable {S}

theorem ReadsAlike.super?_maps (h : S.ReadsAlike L) (c : ClassTy) :
    L.Maps (Option.map (Ty.rename S.ρ)) (Infer.read (c.super? env.resolver))
      (Infer.read ((c.rename S.ρ).super? (env.withIndex ix).resolver)) := by
  simp only [ClassTy.super?, Infer.read_bind]
  refine L.bind (h c) fun d => ?_
  rw [id, S.superOf?_rename]
  exact L.pure (Option.map (Ty.rename S.ρ)) (env.resolver.superOf? d)

theorem ReadsAlike.aliasNames_maps (h : S.ReadsAlike L) (globalsAreTypes : Bool) (c : ClassTy) :
    L.Maps id (Infer.read (c.aliasNames env.resolver globalsAreTypes))
      (Infer.read ((c.rename S.ρ).aliasNames (env.withIndex ix).resolver globalsAreTypes)) := by
  simp only [ClassTy.aliasNames, ClassTy.alias?, Infer.read_bind, ClassTy.rename_name,
    ClassTy.rename_isGlobal, ClassTy.rename_isAnonymous]
  refine L.bind (L.bind (h c) fun d => L.pure id d.alias?) fun other? => ?_
  cases other? with
  | none => exact L.pure id []
  | some other =>
    simp only [id]
    split
    · exact L.pure id []
    · split
      · exact L.pure id [other, globalClassName c.name]
      · exact L.pure id [other]

theorem buildSupers_maps {build build' : ClassTy → Chaining (MemberChain MemberDecl)}
    (h : ∀ c, (L.state id).Maps (MemberChain.rename S.ρ) (build c) (build' (c.rename S.ρ)))
    (classes : List ClassTy) :
    (L.state id).Maps (List.map (MemberChain.rename S.ρ)) (buildSupers build classes)
      (buildSupers build' (classes.map (ClassTy.rename S.ρ))) := by
  induction classes with
  | nil => exact (L.state id).pure (List.map (MemberChain.rename S.ρ)) []
  | cons c rest ih =>
    simp only [List.map_cons, buildSupers, ClassTy.rename_name]
    refine (L.state id).bind (Lifting.get_maps _ id) fun met => ?_
    simp only [id]
    split
    · exact ih
    · refine (L.state id).bind (h c) fun chain => ?_
      refine (L.state id).bind ih fun chains => ?_
      exact (L.state id).pure (List.map (MemberChain.rename S.ρ)) (chain :: chains)

variable (S)

theorem chainOf_maps {build build' : ClassTy → Chaining (MemberChain MemberDecl)}
    (hread : S.ReadsAlike L)
    (h : ∀ c, (L.state id).Maps (MemberChain.rename S.ρ) (build c) (build' (c.rename S.ρ)))
    (c : ClassTy) :
    (L.state id).Maps (MemberChain.rename S.ρ) (chainOf env build c)
      (chainOf (env.withIndex ix) build' (c.rename S.ρ)) := by
  refine (L.state id).bind (Lifting.lift_maps _ id (hread.super?_maps c)) fun super? => ?_
  have hsupers : (L.state id).Maps (List.map (MemberChain.rename S.ρ))
      (if env.cancelled then pure [] else buildSupers build (super?.elim [] Ty.classes))
      (if env.cancelled then pure []
        else buildSupers build' ((super?.map (Ty.rename S.ρ)).elim [] Ty.classes)) := by
    split
    · exact (L.state id).pure (List.map (MemberChain.rename S.ρ)) []
    · cases super? with
      | none => exact buildSupers_maps h []
      | some ty =>
        rw [Option.map_some, Option.elim_some, Option.elim_some, Ty.classes_rename]
        exact buildSupers_maps h ty.classes
  refine (L.state id).bind hsupers fun supers => ?_
  have haliases := hread.aliasNames_maps env.settings.globalsAreTypes c
  refine (L.state id).bind (Lifting.lift_maps _ id haliases) fun aliases => ?_
  rw [id, ← MemberChain.rename_new, S.fillChain_rename]
  exact (L.state id).pure (MemberChain.rename S.ρ) _

end

variable {S} {g : Guard Key × Guard Key} {depth : Nat} {s t : Request}

/-- Either request goes one level deeper, or none does. -/
theorem enterChain_state (h : S.State g depth s t) :
    (enterChain t).1 = (enterChain s).1 ∧
      S.State g (if (enterChain s).1 then depth + 1 else depth) (enterChain s).2 (enterChain t).2 := by
  have henter : ∀ r : Request, r.chainDepth = s.chainDepth →
      enterChain r = (s.chainDepth.enter.1, { r with chainDepth := s.chainDepth.enter.2 }) :=
    fun r hr => by rw [← hr]; rfl
  rw [henter s rfl, henter t h.chainDepth, DepthCounter.enter]
  split
  · exact ⟨rfl, { h with chainDepth := rfl }⟩
  · exact ⟨rfl, { h with chainDepth := rfl, depth := congrArg (· + 1) h.depth }⟩

theorem leaveChain_state (h : S.State g (depth + 1) s t) :
    S.State g depth (leaveChain s).2 (leaveChain t).2 :=
  { h with
    chainDepth := congrArg DepthCounter.leave h.chainDepth
    depth := Nat.sub_eq_of_eq_add h.depth }

theorem buildChain_succ (env : Env) (room : Nat) (c : ClassTy) (met : List String) (s : Request) :
    buildChain env (room + 1) c met s =
      if (enterChain s).1 then
        let (chain, s) := chainOf env (buildChain env room) c (c.name :: met) (enterChain s).2
        (chain, (leaveChain s).2)
      else ((.new c [], c.name :: met), (enterChain s).2) := by
  change (if !(enterChain s).1 then (return .new c [] : Chaining _) else do
      let chain ← chainOf env (buildChain env room) c
      leaveChain
      return chain) (c.name :: met) (enterChain s).2 = _
  cases (enterChain s).1 <;> rfl

variable (S)

/-- How two requests are related while chains are in the making, for each number of them. -/
structure Making where
  Rel (depth : Nat) (s t : Request) : Prop
  read (depth : Nat) : S.ReadsAlike (.ofStates (Rel depth))
  enter {depth : Nat} {s t : Request} : Rel depth s t →
    (enterChain t).1 = (enterChain s).1 ∧
      Rel (if (enterChain s).1 then depth + 1 else depth) (enterChain s).2 (enterChain t).2
  leave {depth : Nat} {s t : Request} :
    Rel (depth + 1) s t → Rel depth (leaveChain s).2 (leaveChain t).2

/-- Mirrored requests, while they have the guards `g`. -/
def making (g : Guard Key × Guard Key) : S.Making where
  Rel := S.State g
  read := fun depth c => S.inferRead_maps (S.readDetails_maps c) (g, depth)
  enter := enterChain_state
  leave := leaveChain_state

variable {S} (M : S.Making)

/-- Chains in the making, where `depth` of them are in the making already. -/
def Making.chaining (depth : Nat) : Lifting Chaining Chaining :=
  (Lifting.ofStates (M.Rel depth)).state id

theorem Making.buildChain_maps (room : Nat) (c : ClassTy) :
    (M.chaining depth).Maps (MemberChain.rename S.ρ) (buildChain env room c)
      (buildChain (env.withIndex ix) room (c.rename S.ρ)) := by
  induction room generalizing depth c with
  | zero =>
    have := (M.chaining depth).pure (MemberChain.rename S.ρ) (.new c [])
    rwa [MemberChain.rename_new] at this
  | succ room ih =>
    intro met s t hstate
    obtain ⟨hok, hentered⟩ := M.enter hstate
    rw [buildChain_succ, buildChain_succ]
    rcases hs : enterChain s with ⟨ok, s'⟩
    rcases ht : enterChain t with ⟨ok', t'⟩
    rw [hs, ht] at hok hentered
    obtain rfl : ok' = ok := hok
    cases ok' with
    | false =>
      rw [ClassTy.rename_name]
      exact ⟨rfl, hentered⟩
    | true =>
      rw [ClassTy.rename_name]
      obtain ⟨hchain, hstate⟩ := S.chainOf_maps (M.read (depth + 1)) (@ih (depth + 1)) c (c.name :: met) s' t'
        hentered
      exact ⟨hchain, M.leave hstate⟩

/-- The chains of a class that is no part of another chain. -/
theorem Making.buildChain_run (c : ClassTy) (h : M.Rel depth s t) :
    ((buildChain (env.withIndex ix) (maxChainDepth + 1) (c.rename S.ρ)).run [] t).1.1
        = ((buildChain env (maxChainDepth + 1) c).run [] s).1.1.rename S.ρ ∧
      M.Rel depth ((buildChain env (maxChainDepth + 1) c).run [] s).2
        ((buildChain (env.withIndex ix) (maxChainDepth + 1) (c.rename S.ρ)).run [] t).2 := by
  obtain ⟨hval, hrel⟩ := M.buildChain_maps (maxChainDepth + 1) c [] s t h
  exact ⟨congrArg Prod.fst hval, hrel⟩

variable (S)

theorem State.insertChain {s t : Request} (h : S.State g depth s t) (cls : String)
    (chain : MemberChain MemberDecl) :
    S.State g depth { s with chains := s.chains.insert cls chain }
      { t with chains := t.chains.insert cls (chain.rename S.ρ) } :=
  { h with
    chains := fun name => by
      simp only [Std.HashMap.getElem?_insert, h.chains]
      split <;> rfl }

theorem memberChain_maps (c : ClassTy) :
    S.infer.Maps (MemberChain.rename S.ρ) (memberChain env c)
      (memberChain (env.withIndex ix) (c.rename S.ρ)) := by
  rintro ⟨g, depth⟩ s t h
  have hchain := h.chains c.name
  unfold memberChain
  simp only [bind, StateT.bind, get, getThe, MonadStateOf.get, StateT.get, pure, ClassTy.rename_name, hchain]
  cases s.chains[c.name]? with
  | some chain => exact ⟨rfl, h⟩
  | none =>
    obtain ⟨hchain, hstate⟩ := (S.making g).buildChain_run c h
    have hinserted := State.insertChain S hstate c.name
      ((buildChain env (maxChainDepth + 1) c).run [] s).1.1
    rw [← hchain] at hinserted
    exact ⟨hchain, hinserted⟩

theorem findMember_maps (c : ClassTy) (name : String) :
    S.infer.Maps (Option.map (MemberDecl.rename S.ρ)) (findMember env c name)
      (findMember (env.withIndex ix) (c.rename S.ρ) name) := by
  refine S.infer.bind (S.memberChain_maps c) fun chain => ?_
  rw [MemberChain.find?_rename]
  exact S.infer.pure (Option.map (MemberDecl.rename S.ρ)) (chain.find? name)

end Simulation

end LuaTypes
