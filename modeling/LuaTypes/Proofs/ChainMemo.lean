import LuaTypes.Program.Draft
import LuaTypes.Proofs.Room

/-!
Member chains are kept by the names of their classes until a request ends. A query for the members
of a class is answered from the chain of the first class of its name that the request was asked
about, and that chain is the one that a new request makes for that class.
-/

namespace LuaTypes

/-! Reading classes through different memos. -/

/-- The details that a class has through a memo, those that it reads if it has read none yet. -/
def ClassTy.detailsIn (r : Resolver) (memo : ClassMemo) (c : ClassTy) : ClassDetails :=
  match c.details with
  | .known d => d
  | .deferred cell =>
    memo.read[(c.name, cell)]?.getD (if r.ready then (r.details? c.name).getD {} else {})

theorem ClassTy.readDetails_fst (r : Resolver) (memo : ClassMemo) (c : ClassTy) :
    (c.readDetails r memo).1 = c.detailsIn r memo := by
  obtain ⟨name, var, flags, origin, details⟩ := c
  cases details with
  | known d => rfl
  | deferred cell =>
    simp only [readDetails, detailsIn]
    cases memo.read[(name, cell)]? with
    | some d => rfl
    | none => cases hready : r.ready <;> simp

/-- To read a class is to note what it reads as anyway. -/
theorem ClassTy.detailsIn_readDetails (r : Resolver) (c other : ClassTy) (memo : ClassMemo) :
    other.detailsIn r (c.readDetails r memo).2 = other.detailsIn r memo := by
  obtain ⟨name, var, flags, origin, details⟩ := c
  cases details with
  | known d => rfl
  | deferred cell =>
    simp only [readDetails]
    cases hcell : memo.read[(name, cell)]? with
    | some d => rfl
    | none =>
      cases hready : r.ready with
      | false => rfl
      | true =>
        obtain ⟨name', _, _, _, details'⟩ := other
        cases details' with
        | known d => rfl
        | deferred cell' =>
          simp only [detailsIn, if_true, Std.HashMap.getElem?_insert, hready]
          split
          · rename_i hkey
            obtain ⟨rfl, rfl⟩ := Prod.mk.inj (beq_iff_eq.mp hkey)
            rw [hcell]
            rfl
          · rfl

/-- Every class reads through the second memo as through the first. -/
def ClassMemo.ReadsAs (r : Resolver) (m m' : ClassMemo) : Prop :=
  ∀ c : ClassTy, c.detailsIn r m' = c.detailsIn r m

theorem ClassMemo.ReadsAs.readDetails {r : Resolver} {m m' : ClassMemo} (h : m.ReadsAs r m')
    (c : ClassTy) :
    (c.readDetails r m').1 = c.detailsIn r m ∧ m.ReadsAs r (c.readDetails r m').2 :=
  ⟨(c.readDetails_fst r m').trans (h c), fun other =>
    (c.detailsIn_readDetails r other m').trans (h other)⟩

/-! Chains. -/

/-- Two requests at the same point of making chains, both with memos through which classes read as
through a third one. They may keep different chains. -/
structure Request.Beside (env : Env) (memo : ClassMemo)
    (kept kept' : Std.HashMap String (MemberChain MemberDecl)) (depth : Nat) (s t : Request) :
    Prop where
  reads : memo.ReadsAs env.resolver s.memo
  reads' : memo.ReadsAs env.resolver t.memo
  level : s.chainDepth.At maxChainDepth depth
  level' : t.chainDepth.At maxChainDepth depth
  chains : s.chains = kept
  chains' : t.chains = kept'

namespace Request.Beside

variable {env : Env} {memo : ClassMemo} {kept kept' : Std.HashMap String (MemberChain MemberDecl)}
  {depth : Nat} {s t : Request}

theorem readsAlike :
    (Simulation.refl env).ReadsAlike (.ofStates (Beside env memo kept kept' depth)) := by
  intro c s t h
  obtain ⟨hs, hreads⟩ := h.reads.readDetails c
  obtain ⟨ht, hreads'⟩ := h.reads'.readDetails c
  rw [Simulation.refl, ClassTy.rename_id]
  exact ⟨ht.trans hs.symm, { h with reads := hreads, reads' := hreads' }⟩

/-- Both requests go one chain deeper, or neither does. -/
theorem enter (h : Beside env memo kept kept' depth s t) :
    (enterChain t).1 = (enterChain s).1 ∧
      Beside env memo kept kept' (if (enterChain s).1 then depth + 1 else depth)
        (enterChain s).2 (enterChain t).2 := by
  rcases h.level.enter with ⟨hlt, hok, hs⟩ | ⟨heq, hok, hs⟩
  · rcases h.level'.enter with ⟨-, hok', ht⟩ | ⟨heq', -, -⟩
    · refine ⟨hok'.trans hok.symm, ?_⟩
      rw [show (enterChain s).1 = true from hok]
      exact { h with level := hs, level' := ht }
    · omega
  · rcases h.level'.enter with ⟨hlt', -, -⟩ | ⟨-, hok', ht⟩
    · omega
    · refine ⟨hok'.trans hok.symm, ?_⟩
      rw [show (enterChain s).1 = false from hok]
      exact { h with level := hs, level' := ht }

end Request.Beside

/-- Chains in the making depend on how classes read, and not on the chains that are kept. -/
def Simulation.beside (env : Env) (memo : ClassMemo)
    (kept kept' : Std.HashMap String (MemberChain MemberDecl)) : (refl env).Making where
  Rel := Request.Beside env memo kept kept'
  read := fun _ => Request.Beside.readsAlike
  enter := Request.Beside.enter
  leave := fun h => { h with level := h.level.leave, level' := h.level'.leave }

theorem Request.Beside.chain {env : Env} {memo : ClassMemo}
    {kept kept' : Std.HashMap String (MemberChain MemberDecl)} {depth : Nat} {s t : Request}
    (h : Beside env memo kept kept' depth s t) (c : ClassTy) :
    let made (s : Request) := (buildChain env (maxChainDepth + 1) c).run [] s
    (made t).1.1 = (made s).1.1 ∧ Beside env memo kept kept' depth (made s).2 (made t).2 := by
  have hmade := (Simulation.beside env memo kept kept').buildChain_run c h
  simp only [Simulation.refl, ClassTy.rename_id, MemberChain.rename_id] at hmade
  exact hmade

/-- A chain that is not kept yet is made, and kept from then on. -/
theorem memberChain_of_none {env : Env} {s : Request} {c : ClassTy} (h : s.chains[c.name]? = none) :
    memberChain env c s =
      let made := (buildChain env (maxChainDepth + 1) c).run [] s
      (made.1.1, { made.2 with chains := made.2.chains.insert c.name made.1.1 }) := by
  unfold memberChain
  simp only [bind, StateT.bind, get, getThe, MonadStateOf.get, StateT.get, pure, h]
  rfl

theorem memberChain_of_some {env : Env} {s : Request} {c : ClassTy}
    {chain : MemberChain MemberDecl} (h : s.chains[c.name]? = some chain) :
    memberChain env c s = (chain, s) := by
  unfold memberChain
  simp only [bind, StateT.bind, get, getThe, MonadStateOf.get, StateT.get, pure, h]
  rfl

/-- The chain that a new request makes for a class. -/
def newChain (env : Env) (memo : ClassMemo) (c : ClassTy) : MemberChain MemberDecl :=
  (memberChain env c { memo }).1

/-- The first class of the same name, if one was asked about before. -/
def ClassTy.firstNamed (asked : List ClassTy) (c : ClassTy) : ClassTy :=
  (asked.find? (·.name == c.name)).getD c

theorem ClassTy.firstNamed_append_self (asked later : List ClassTy) (c : ClassTy) :
    c.firstNamed (asked ++ c :: later) = c.firstNamed asked := by
  rw [firstNamed, firstNamed, List.find?_append]
  cases asked.find? (·.name == c.name) with
  | some first => rfl
  | none => simp

/-- What a request is like that was asked about the members of these classes: for each name it keeps
the chain of the first class of that name. -/
structure Request.HasAsked (env : Env) (memo : ClassMemo) (asked : List ClassTy) (s : Request) :
    Prop where
  reads : memo.ReadsAs env.resolver s.memo
  level : s.chainDepth.At maxChainDepth 0
  chains (name : String) :
    s.chains[name]? = (asked.find? (·.name == name)).map (newChain env memo)

namespace Request.HasAsked

variable {env : Env} {memo : ClassMemo} {asked : List ClassTy} {s : Request}

theorem new (env : Env) (memo : ClassMemo) : HasAsked env memo [] { memo } where
  reads := fun _ => rfl
  level := ⟨rfl, rfl, Nat.zero_le _⟩
  chains := fun name => by simp

theorem memberChain (h : HasAsked env memo asked s) (c : ClassTy) :
    (memberChain env c s).1 = newChain env memo (c.firstNamed asked) ∧
      HasAsked env memo (asked ++ [c]) (memberChain env c s).2 := by
  have hkept := h.chains c.name
  cases hfirst : asked.find? (·.name == c.name) with
  | some first =>
    rw [hfirst, Option.map_some] at hkept
    rw [memberChain_of_some hkept, ClassTy.firstNamed, hfirst]
    refine ⟨rfl, h.reads, h.level, fun name => ?_⟩
    rw [h.chains, List.find?_append]
    by_cases hname : c.name = name
    · rw [← hname, hfirst, Option.some_or]
    · simp [hname]
  | none =>
    rw [hfirst, Option.map_none] at hkept
    -- A new request, which keeps no chains, makes the same one beside this request.
    have hnew : ({ memo } : Request).chains[c.name]? = none := by simp
    have hstart : Beside env memo {} s.chains 0 { memo } s :=
      ⟨fun _ => rfl, h.reads, ⟨rfl, rfl, Nat.zero_le _⟩, h.level, rfl, rfl⟩
    obtain ⟨hchain, hmade⟩ := hstart.chain c
    have hfresh : newChain env memo c
        = ((buildChain env (maxChainDepth + 1) c).run [] { memo }).1.1 := by
      rw [newChain, memberChain_of_none hnew]
    rw [memberChain_of_none hkept, ClassTy.firstNamed, hfirst, Option.getD_none, hfresh]
    refine ⟨hchain, hmade.reads', hmade.level', fun name => ?_⟩
    simp only [Std.HashMap.getElem?_insert, hmade.chains', h.chains, List.find?_append]
    split
    · rename_i hname
      rw [← beq_iff_eq.mp hname, hfirst, hchain, ← hfresh]
      simp
    · rename_i hname
      simp [hname]

end Request.HasAsked

/-! Queries. -/

/-- A query for the members of a class. -/
inductive ChainQuery
  | chain (cls : ClassTy)
  | member (cls : ClassTy) (name : String)
  | superMember (cls : ClassTy) (name : String)
  | members (cls : ClassTy) (deep : Bool)

inductive ChainAnswer
  | chain (chain : MemberChain MemberDecl)
  | decl (decl? : Option MemberDecl)
  | entries (entries : List (MemberChain.Entry MemberDecl))

namespace ChainQuery

def cls : ChainQuery → ClassTy
  | .chain c | .member c _ | .superMember c _ | .members c _ => c

def perform (env : Env) : ChainQuery → Infer ChainAnswer
  | .chain c => .chain <$> memberChain env c
  | .member c name => .decl <$> findMember env c name
  | .superMember c name => .decl <$> findSuperMember env c name
  | .members c deep => .entries <$> listMembers env c deep

/-- The answer that a chain holds. -/
def answerOf (chain : MemberChain MemberDecl) : ChainQuery → ChainAnswer
  | .chain _ => .chain chain
  | .member _ name => .decl (chain.find? name)
  | .superMember _ name => .decl (chain.findSuper? name)
  | .members _ deep => .entries (chain.entries deep)

variable {env : Env}

theorem perform_apply (q : ChainQuery) (s : Request) :
    q.perform env s = (q.answerOf (memberChain env q.cls s).1, (memberChain env q.cls s).2) := by
  cases q <;> rfl

theorem answers_from {memo : ClassMemo} {asked : List ClassTy} {s : Request}
    (h : s.HasAsked env memo asked) (queries : List ChainQuery) :
    (queries.mapM (·.perform env) s).1 =
      queries.map fun q =>
        q.answerOf (newChain env memo (q.cls.firstNamed (asked ++ queries.map cls))) := by
  induction queries generalizing asked s with
  | nil => rfl
  | cons q rest ih =>
    obtain ⟨hchain, hasked⟩ := h.memberChain q.cls
    have hcons : ((q :: rest).mapM (·.perform env) s).1
        = (q.perform env s).1 :: (rest.mapM (·.perform env) (q.perform env s).2).1 := by
      rw [List.mapM_cons]
      rfl
    rw [hcons, perform_apply, ih hasked, hchain, List.map_cons, List.map_cons,
      List.append_assoc, List.singleton_append, ClassTy.firstNamed_append_self]

/-- Every query is answered from the chain that a new request makes for the first class of its name
among the classes that the request is asked about. -/
theorem mapM_perform (env : Env) (memo : ClassMemo) (queries : List ChainQuery) :
    (queries.mapM (·.perform env) { memo }).1 =
      queries.map fun q => q.answerOf (newChain env memo (q.cls.firstNamed (queries.map cls))) :=
  answers_from (.new env memo) queries

/-- As long as no two different classes of one name are asked about, every query is answered as by a
new request. -/
theorem mapM_perform_eq_new (env : Env) (memo : ClassMemo) {queries : List ChainQuery}
    (h : ∀ q ∈ queries, ∀ q' ∈ queries, q'.cls.name = q.cls.name → q'.cls = q.cls) :
    (queries.mapM (·.perform env) { memo }).1 =
      queries.map fun q => (q.perform env { memo }).1 := by
  rw [answers_from (.new env memo) queries]
  refine List.map_congr_left fun q hq => ?_
  have hfirst : q.cls.firstNamed (queries.map cls) = q.cls := by
    rw [ClassTy.firstNamed]
    cases hfound : (queries.map cls).find? (·.name == q.cls.name) with
    | none => rfl
    | some first =>
      obtain ⟨q', hq', rfl⟩ := List.mem_map.mp (List.mem_of_find?_eq_some hfound)
      have hname := List.find?_some hfound
      exact h q hq q' hq' (beq_iff_eq.mp hname)
  rw [perform_apply, newChain, List.nil_append, hfirst]

end ChainQuery

/-! Classes without superclasses. -/

theorem chainOf_apply (env : Env) (build : ClassTy → Chaining (MemberChain MemberDecl))
    (c : ClassTy) (met : List String) (s : Request) :
    chainOf env build c met s =
      let (super?, s) := Infer.read (c.super? env.resolver) s
      let ((supers, met), s) := (if env.cancelled then pure []
        else buildSupers build (super?.elim [] Ty.classes) : Chaining _) met s
      let (aliases, s) := Infer.read (c.aliasNames env.resolver env.settings.globalsAreTypes) s
      ((fillChain env (.new c supers) aliases, met), s) := rfl

/-- The other names of a class with these details. -/
def ClassTy.otherNames (globalsAreTypes : Bool) (d : ClassDetails) (c : ClassTy) : List String :=
  match d.alias? with
  | none => []
  | some other =>
    if other = c.name then []
    else if !c.isGlobal && !c.isAnonymous && globalsAreTypes then [other, globalClassName c.name]
    else [other]

theorem ClassTy.aliasNames_eq (r : Resolver) (globalsAreTypes : Bool) (c : ClassTy) :
    c.aliasNames r globalsAreTypes = (c.otherNames globalsAreTypes ·) <$> c.readDetails r := by
  funext memo
  simp only [aliasNames, alias?, otherNames, map_eq_pure_bind, bind_assoc, pure_bind]
  refine congrFun (congrArg (c.readDetails r >>= ·) (funext fun d => ?_)) memo
  cases d.alias? with
  | none => rfl
  | some other => grind

theorem chainOf_of_no_supers {env : Env} {build : ClassTy → Chaining (MemberChain MemberDecl)}
    {c : ClassTy} {met : List String} {s : Request}
    (h : env.resolver.superOf? (c.detailsIn env.resolver s.memo) = none) :
    (chainOf env build c met s).1.1 = fillChain env (.new c [])
      (c.otherNames env.settings.globalsAreTypes (c.detailsIn env.resolver s.memo)) := by
  have hsuper : Infer.read (c.super? env.resolver) s
      = (none, { s with memo := (c.readDetails env.resolver s.memo).2 }) := by
    rw [← ClassTy.readDetails_fst] at h
    rw [← h]
    rfl
  have hsupers (s : Request) :
      (if env.cancelled then pure [] else buildSupers build [] : Chaining _) met s
        = (([], met), s) := by
    cases env.cancelled <;> rfl
  rw [chainOf_apply, hsuper]
  simp only [Option.elim_none, hsupers, ClassTy.aliasNames_eq]
  change fillChain env (.new c []) (c.otherNames _
    (c.readDetails env.resolver (c.readDetails env.resolver s.memo).2).1) = _
  rw [ClassTy.readDetails_fst, ClassTy.detailsIn_readDetails]

/-- The chain of a class without superclasses. -/
theorem newChain_of_no_supers {env : Env} {memo : ClassMemo} {c : ClassTy}
    (h : env.resolver.superOf? (c.detailsIn env.resolver memo) = none) :
    newChain env memo c = fillChain env (.new c [])
      (c.otherNames env.settings.globalsAreTypes (c.detailsIn env.resolver memo)) := by
  have hnew : ({ memo } : Request).chains[c.name]? = none := by simp
  rw [newChain, memberChain_of_none hnew]
  simp only [StateT.run]
  rw [Simulation.buildChain_succ, show (enterChain { memo }).1 = true from rfl, if_pos rfl]
  exact chainOf_of_no_supers h

/-! A class and the class of the global of its name. -/

/-- An index that declares the class `Foo` with another name, and a member of the class that stores
the fields of the global `Foo`. -/
def Env.aliasedFoo : Env where
  program := Draft.build {}
  index := {
    classes := ({} : Std.HashMap String ClassDecl).insert "Foo"
      ⟨"Foo", 0, 0, false, { alias? := some "Bar" }⟩
    members := ({} : Std.HashMap String (Array MemberDecl)).insert "$Foo"
      #[⟨"m", "$Foo", .funcDef 0, 0, 0, false, false⟩] }
  settings := {}
  resolveModule? := fun _ => none
  cancelled := false

namespace Env.aliasedFoo

theorem detailsIn {c : ClassTy} {cell : Nat} (hname : c.name = "Foo")
    (hdetails : c.details = .deferred cell) :
    c.detailsIn aliasedFoo.resolver { next := 2 } = { alias? := some "Bar" } := by
  simp [ClassTy.detailsIn, hname, hdetails, aliasedFoo, resolver, Index.resolver, Index.findClass?]

theorem classMembers (cls : String) : aliasedFoo.index.classMembers cls =
    if cls = "$Foo" then [⟨"m", "$Foo", .funcDef 0, 0, 0, false, false⟩] else [] := by
  simp only [aliasedFoo, Index.classMembers, Index.membersOf, Std.HashMap.getD_insert]
  split
  · contradiction
  · by_cases h : cls = "$Foo"
    · simp [h, MemberDecl.isDefining]
    · simp [h, Ne.symm h]

/-- The class `Foo` has the members of the global as well. -/
theorem find?_named : (newChain aliasedFoo { next := 2 } (.deferred "Foo" 0)).find? "m"
    = some ⟨"m", "$Foo", .funcDef 0, 0, 0, false, false⟩ := by
  have hdetails : (ClassTy.deferred "Foo" 0).detailsIn aliasedFoo.resolver { next := 2 } = _ :=
    detailsIn rfl rfl
  have hothers : (ClassTy.deferred "Foo" 0).otherNames aliasedFoo.settings.globalsAreTypes
      { alias? := some "Bar" } = ["Bar", "$Foo"] := by decide
  rw [newChain_of_no_supers (by rw [hdetails]; rfl), hdetails, hothers]
  simp only [fillChain, List.flatMap_cons, classMembers]
  rfl

/-- The class of the name of the global has not. -/
theorem find?_global :
    (newChain aliasedFoo { next := 2 } (.globalNamed "Foo" 1)).find? "m" = none := by
  have hdetails : (ClassTy.globalNamed "Foo" 1).detailsIn aliasedFoo.resolver { next := 2 } = _ :=
    detailsIn rfl rfl
  have hothers : (ClassTy.globalNamed "Foo" 1).otherNames aliasedFoo.settings.globalsAreTypes
      { alias? := some "Bar" } = ["Bar"] := by decide
  rw [newChain_of_no_supers (by rw [hdetails]; rfl), hdetails, hothers]
  simp only [fillChain, List.flatMap_cons, classMembers]
  rfl

end Env.aliasedFoo

/-- The two classes are different, and a new request finds the member on the first of them only. But
one that was asked about the first finds it on the second as well. -/
theorem ChainQuery.mapM_perform_ne_new :
    let named := ClassTy.deferred "Foo" 0
    let global := ClassTy.globalNamed "Foo" 1
    let queries : List ChainQuery := [.member named "m", .member global "m"]
    let found : ChainAnswer := .decl (some ⟨"m", "$Foo", .funcDef 0, 0, 0, false, false⟩)
    Env.aliasedFoo.index.ready = true ∧ Env.aliasedFoo.cancelled = false ∧
    (Ty.cls named == Ty.cls global) = false ∧
    (queries.mapM (·.perform .aliasedFoo) { memo := { next := 2 } }).1 = [found, found] ∧
    queries.map (fun q => (q.perform .aliasedFoo { memo := { next := 2 } }).1)
      = [found, .decl none] := by
  intro named global queries found
  let answer (c : ClassTy) : ChainAnswer :=
    .decl ((newChain .aliasedFoo { next := 2 } c).find? "m")
  have hnamed : answer named = found := congrArg ChainAnswer.decl Env.aliasedFoo.find?_named
  have hglobal : answer global = .decl none := congrArg ChainAnswer.decl Env.aliasedFoo.find?_global
  refine ⟨rfl, rfl, rfl, ?_, ?_⟩
  · rw [answers_from (.new _ _)]
    change [answer named, answer named] = _
    rw [hnamed]
  · change [answer named, answer global] = _
    rw [hnamed, hglobal]

end LuaTypes
