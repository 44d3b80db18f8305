import LuaTypes.Proofs.Guarded

/-!
Room for walks that nest. A walk that counts its nesting, or that never meets a class name twice,
ends before its room runs out: with more room it goes the same way.
-/

namespace LuaTypes

/-! Counted nesting. -/

namespace DepthCounter

variable {d : DepthCounter} {limit level : Nat}

/-- The counter stands at a level, no deeper than its limit. -/
structure At (d : DepthCounter) (limit level : Nat) : Prop where
  maxDepth : d.maxDepth = limit
  depth : d.depth = level
  bound : level ≤ limit

theorem At.enter (h : d.At limit level) :
    (level < limit ∧ d.enter.1 = true ∧ d.enter.2.At limit (level + 1)) ∨
      (level = limit ∧ d.enter.1 = false ∧ d.enter.2.At limit level) := by
  have hdepth := h.depth
  have hlimit := h.maxDepth
  have hbound := h.bound
  by_cases hlt : level < limit
  · rw [DepthCounter.enter, if_neg (by omega)]
    exact .inl ⟨hlt, rfl, hlimit, congrArg (· + 1) hdepth, hlt⟩
  · rw [DepthCounter.enter, if_pos (by omega)]
    exact .inr ⟨by omega, rfl, hlimit, hdepth, hbound⟩

theorem At.leave (h : d.At limit (level + 1)) : d.leave.At limit level :=
  ⟨h.maxDepth, Nat.sub_eq_of_eq_add h.depth, Nat.le_of_succ_le h.bound⟩

end DepthCounter

namespace Unifier

/-- Unifiers that are nested as deep as this. -/
def nested (level : Nat) : Lifting (StateM Unifier) (StateM Unifier) :=
  .ofStates fun u v => v = u ∧ u.depth.At maxSubstDepth level

theorem unifyWithin_succ (room : Nat) (actual formal : Ty) (u : Unifier) :
    unifyWithin (room + 1) actual formal u =
      if actual.isInvalid then ((), u)
      else if (enter u).1 then
        leave (unifyParts (unifyWithin room) actual formal (enter u).2).2
      else ((), (enter u).2) := by
  simp only [unifyWithin]
  cases actual.isInvalid with
  | true => rfl
  | false =>
    change (if (enter u).1 = true then (do
      unifyParts (unifyWithin room) actual formal
      leave : StateM Unifier Unit) else pure ()) (enter u).2 = _
    cases (enter u).1 <;> rfl

theorem unifyParts_nested {level : Nat} {unify unify' : Ty → Ty → StateM Unifier Unit}
    (h : ∀ actual formal, (nested level).Maps id (unify actual formal) (unify' actual formal))
    (actual formal : Ty) :
    (nested level).Maps id (unifyParts unify actual formal) (unifyParts unify' actual formal) := by
  have hbind (name : String) (actual : Ty) :
      (nested level).Maps id (bind name actual) (bind name (actual.rename fun cell => cell)) := by
    rintro u _ ⟨rfl, hu⟩
    rw [Ty.rename_id]
    exact ⟨rfl, rfl, hu⟩
  have hunify (actual formal : Ty) : (nested level).Maps id (unify actual formal)
      (unify' (actual.rename fun cell => cell) (formal.rename fun cell => cell)) := by
    rw [Ty.rename_id, Ty.rename_id]
    exact h actual formal
  have hparts := unifyParts_maps (fun cell => cell) (nested level) hbind hunify actual formal
  rwa [Ty.rename_id, Ty.rename_id] at hparts

/-- The counter refuses to nest deeper before the room is used up. -/
theorem unifyWithin_add {room level : Nat} (hroom : maxSubstDepth < room + level) (extra : Nat)
    (actual formal : Ty) :
    (nested level).Maps id (unifyWithin room actual formal)
      (unifyWithin (room + extra) actual formal) := by
  induction room generalizing level actual formal with
  | zero =>
    rintro _ u ⟨rfl, hu⟩
    -- The counter never stands above its limit, so the room is not used up here.
    have := hu.bound
    omega
  | succ room ih =>
    rintro _ u ⟨rfl, hu⟩
    rw [Nat.add_right_comm, unifyWithin_succ, unifyWithin_succ]
    split
    · exact ⟨rfl, rfl, hu⟩
    · rcases hu.enter with ⟨-, hok, hentered⟩ | ⟨-, hok, hrefused⟩
      · have hroom' : maxSubstDepth < room + (level + 1) := by omega
        obtain ⟨-, hstate, hu'⟩ :=
          unifyParts_nested (ih hroom') actual formal (enter u).2 (enter u).2 ⟨rfl, hentered⟩
        rw [show (enter u).1 = true from hok, if_pos rfl, if_pos rfl, hstate]
        exact ⟨rfl, rfl, hu'.leave⟩
      · rw [show (enter u).1 = false from hok]
        exact ⟨rfl, rfl, hrefused⟩

end Unifier

/-- The arguments of a call are read to their ends. -/
theorem Signature.unifier_add (sig : Signature) (args : List Ty) (extra : Nat) :
    (((sig.pairs args).forM fun pair =>
      Unifier.unifyWithin (maxSubstDepth + 1 + extra) pair.1 pair.2).run (.ofSignature sig)).2
        = sig.unifier args := by
  have hall := (Unifier.nested 0).forM id (sig.pairs args)
    (f := fun pair => Unifier.unify pair.1 pair.2)
    (g := fun pair => Unifier.unifyWithin (maxSubstDepth + 1 + extra) pair.1 pair.2)
    fun pair _ => Unifier.unifyWithin_add (Nat.lt_succ_self maxSubstDepth) extra pair.1 pair.2
  rw [List.map_id] at hall
  exact (hall (.ofSignature sig) _ ⟨rfl, rfl, rfl, Nat.zero_le _⟩).2.1

/-! Member chains. -/

section

variable {env : Env}

/-- Requests with this many chains in the making. -/
def Infer.nested (level : Nat) : Lifting Infer Infer :=
  .ofStates fun s t => t = s ∧ s.chainDepth.At maxChainDepth level

theorem chainOf_nested {level : Nat} {build build' : ClassTy → Chaining (MemberChain MemberDecl)}
    (h : ∀ c, ((Infer.nested level).state id).Maps id (build c) (build' c)) (c : ClassTy) :
    ((Infer.nested level).state id).Maps id (chainOf env build c) (chainOf env build' c) := by
  have hbuild (c : ClassTy) : ((Infer.nested level).state id).Maps
      (MemberChain.rename fun cell => cell) (build c) (build' (c.rename fun cell => cell)) := by
    rw [funext MemberChain.rename_id, ClassTy.rename_id]
    exact h c
  have hread : (Simulation.refl env).ReadsAlike (Infer.nested level) := by
    rintro c _ s ⟨rfl, hs⟩
    obtain ⟨hval, hmemo⟩ := (Simulation.refl env).readDetails_maps c s.memo s.memo rfl
    exact ⟨hval, congrArg (fun memo => { s with memo }) hmemo.symm, hs⟩
  have hchain := (Simulation.refl env).chainOf_maps hread hbuild c
  rwa [Simulation.refl, funext MemberChain.rename_id, ClassTy.rename_id] at hchain

/-- The counter refuses to nest deeper before the room is used up. -/
theorem buildChain_add {room level : Nat} (hroom : maxChainDepth < room + level) (extra : Nat)
    (c : ClassTy) :
    ((Infer.nested level).state id).Maps id (buildChain env room c)
      (buildChain env (room + extra) c) := by
  induction room generalizing level c with
  | zero =>
    rintro met _ s ⟨rfl, hs⟩
    have := hs.bound
    omega
  | succ room ih =>
    rintro met _ s ⟨rfl, hs⟩
    rw [Nat.add_right_comm, Simulation.buildChain_succ, Simulation.buildChain_succ]
    rcases hs.enter with ⟨-, hok, hentered⟩ | ⟨-, hok, hrefused⟩
    · have hroom' : maxChainDepth < room + (level + 1) := by omega
      obtain ⟨hval, hstate, hs'⟩ := chainOf_nested (ih hroom') c (c.name :: met) (enterChain s).2
        (enterChain s).2 ⟨rfl, hentered⟩
      rw [show (enterChain s).1 = true from hok]
      exact ⟨hval, congrArg (fun s => (leaveChain s).2) hstate, hs'.leave⟩
    · rw [show (enterChain s).1 = false from hok]
      exact ⟨rfl, rfl, hrefused⟩

/-- A chain is built to its end. -/
theorem buildChain_run_add (c : ClassTy) (extra : Nat) {s : Request} (hs : s.Holds s.guard 0) :
    (buildChain env (maxChainDepth + 1 + extra) c).run [] s
      = (buildChain env (maxChainDepth + 1) c).run [] s := by
  have hnested := @buildChain_add env _ 0 (Nat.lt_succ_self maxChainDepth) extra c
  obtain ⟨hval, hstate, -⟩ := hnested [] s s ⟨rfl, hs.limit, hs.depth, Nat.zero_le _⟩
  exact Prod.ext hval hstate

end

/-! Aliases. -/

section

variable {m : Type → Type} [Monad m] [LawfulMonad m]

/-- Rewriters that do the same for every class node that they come to do the same for the type. -/
theorem Lifting.rewrite_same (L : Lifting m m) {f g : Rewriter m}
    (hgenerics : f.entersGenerics = g.entersGenerics) {P : Ty → Prop}
    (hwalked : ∀ {ty : Ty}, P ty → ∀ part ∈ ty.walked f.entersGenerics, P part)
    (h : ∀ {c : ClassTy}, P (.cls c) → L.Maps id (f.atClass c) (g.atClass c)) (room : Nat)
    {ty : Ty} (hty : P ty) : L.Maps id (ty.rewrite f room) (ty.rewrite g room) := by
  have hrename : Ty.rename (fun cell => cell) = id := funext Ty.rename_id
  have hrewrite := L.rewrite_walked (fun cell => cell) hgenerics hwalked (fun {c} hc => ?_) room hty
  · rwa [hrename] at hrewrite
  · rw [hrename, ClassTy.rename_id]
    exact h hc

/-- Rewriters that do the same for the class nodes of a type do the same for the type. -/
theorem Lifting.substitute_same (L : Lifting m m) {f g : Rewriter m}
    (hgenerics : f.entersGenerics = g.entersGenerics) (ty : Ty)
    (h : ∀ c : ClassTy, c.name ∈ ty.classNames → L.Maps id (f.replace? c) (g.replace? c)) :
    L.Maps id (ty.substitute f) (ty.substitute g) := by
  have hrename : Ty.rename (fun cell => cell) = id := funext Ty.rename_id
  have hsubstitute := L.substitute (fun cell => cell) hgenerics ty fun c hc => ?_
  · rwa [hrename] at hsubstitute
  · rw [hrename, ClassTy.rename_id, Option.map_id]
    exact h c hc

end

section

variable {r : Resolver} {names : List String}

/-- How many names of a list an expansion has not met. -/
def Expansion.unmet (s : Expansion) (names : List String) : Nat :=
  names.countP (· ∉ s.visited)

/-- Expansions that have at most so many names of a list still to meet. -/
def Expanding.within (names : List String) (count : Nat) : Lifting Expanding Expanding :=
  .ofStates fun s t => t = s ∧ s.unmet names ≤ count

theorem ClassTy.alias?_of_aliasTarget? {c : ClassTy} {target : Ty} {memo : ClassMemo}
    (h : (c.aliasTarget? r memo).1 = some target) : ∃ name, r.alias? name = some target := by
  simp only [aliasTarget?] at h
  split at h
  · cases (show none = some target from h)
  · cases halias : r.alias? c.name with
    | some found =>
      simp only [halias] at h
      exact ⟨c.name, halias.trans h⟩
    | none =>
      rcases hread : c.alias? r memo with ⟨other?, memo'⟩
      simp only [halias, bind, StateT.bind, hread] at h
      cases other? with
      | none => cases (show none = some target from h)
      | some other =>
        by_cases hname : other = c.name
        · simp only [hname, if_true] at h
          cases (show none = some target from h)
        · simp only [hname, if_false] at h
          exact ⟨other, h⟩

/-- What is done for a class node. -/
theorem aliasRewriter_apply (expand : Ty → Expanding Ty) (c : ClassTy) (s : Expansion) :
    (aliasRewriter r expand).replace? c s =
      if c.name ∈ s.visited then (none, s)
      else match c.aliasTarget? r s.memo with
        | (some target, memo) =>
          let (ty, s) := expand target ⟨c.name :: s.visited, memo⟩
          (some (ty.join (.cls c)), s)
        | (none, memo) => (some (.cls c), ⟨c.name :: s.visited, memo⟩) := by
  simp only [aliasRewriter, bind, StateT.bind, Expanding.visit]
  by_cases hmet : c.name ∈ s.visited
  · simp only [hmet, if_true]
    rfl
  · rcases htarget : c.aliasTarget? r s.memo with ⟨target?, memo⟩
    have hread : Expanding.read (c.aliasTarget? r) ⟨c.name :: s.visited, s.memo⟩
        = (target?, ⟨c.name :: s.visited, memo⟩) := by
      simp only [Expanding.read, StateT.run, htarget]
    simp only [hmet, if_false, if_true, StateT.bind, hread]
    cases target? <;> rfl

/-- Meeting a name leaves no more names to meet. -/
theorem Expansion.unmet_cons_le (names : List String) (s : Expansion) (name : String)
    (memo : ClassMemo) :
    Expansion.unmet ⟨name :: s.visited, memo⟩ names ≤ s.unmet names :=
  List.countP_mono_left fun other _ => by simp

/-- Meeting a name of the list for the first time leaves fewer names to meet. -/
theorem Expansion.unmet_cons_lt {s : Expansion} {name : String} (hname : name ∈ names)
    (hnew : name ∉ s.visited) (memo : ClassMemo) :
    Expansion.unmet ⟨name :: s.visited, memo⟩ names < s.unmet names := by
  obtain ⟨before, after, rfl⟩ := List.append_of_mem hname
  have hbefore := s.unmet_cons_le before name memo
  have hafter := s.unmet_cons_le after name memo
  have hold : decide (name ∉ name :: s.visited) = false := by simp
  have hnew : decide (name ∉ s.visited) = true := by simpa using hnew
  simp only [unmet, List.countP_append, List.countP_cons, hold, hnew] at hbefore hafter ⊢
  simp only [if_true, Bool.false_eq_true, if_false]
  omega

/-- What is done for a class node, if the targets of aliases are expanded alike once it is met. -/
theorem aliasRewriter_within {count : Nat} {expand expand' : Ty → Expanding Ty} {c : ClassTy}
    (htargets : ∀ name target, r.alias? name = some target → target.classNames ⊆ names)
    (h : ∀ (s : Expansion) (memo : ClassMemo), s.unmet names ≤ count → c.name ∉ s.visited →
      ∀ target : Ty, target.classNames ⊆ names →
        (Expanding.within names (Expansion.unmet ⟨c.name :: s.visited, memo⟩ names)).Maps id
          (expand target) (expand' target)) :
    (Expanding.within names count).Maps id ((aliasRewriter r expand).replace? c)
      ((aliasRewriter r expand').replace? c) := by
  rintro _ s ⟨rfl, hs⟩
  rw [aliasRewriter_apply, aliasRewriter_apply]
  split
  · exact ⟨rfl, rfl, hs⟩
  · rename_i hnew
    rcases hread : c.aliasTarget? r s.memo with ⟨target?, memo⟩
    have hle : Expansion.unmet ⟨c.name :: s.visited, memo⟩ names ≤ count :=
      Nat.le_trans (s.unmet_cons_le names c.name memo) hs
    cases target? with
    | none => exact ⟨rfl, rfl, hle⟩
    | some target =>
      obtain ⟨name, halias⟩ := ClassTy.alias?_of_aliasTarget? (congrArg Prod.fst hread)
      obtain ⟨hval, hstate, hunmet⟩ := h s memo hs hnew target (htargets name target halias)
        _ _ ⟨rfl, Nat.le_refl _⟩
      exact ⟨congrArg (fun ty : Ty => some (ty.join (.cls c))) hval, hstate, Nat.le_trans hunmet hle⟩

/-- Expands the aliases of a type, where something else is done in place of an expansion that nests
`n` deep. -/
def expandFrom (r : Resolver) (base : Ty → Expanding Ty) : Nat → Ty → Expanding Ty
  | 0, ty => base ty
  | n + 1, ty => ty.substitute (aliasRewriter r (expandFrom r base n))

theorem expandFrom_pure (r : Resolver) (n : Nat) : expandFrom r pure n = expandWithin r n := by
  induction n with
  | zero => rfl
  | succ n ih =>
    funext ty
    rw [expandFrom, expandWithin, ih]

/-- Where all class nodes have names of the list, there is room to meet each of them, so that it
does not matter what is done where the room ends. -/
theorem expandFrom_within
    (htargets : ∀ name target, r.alias? name = some target → target.classNames ⊆ names)
    (base base' : Ty → Expanding Ty) {room count : Nat} (hroom : count < room) (extra : Nat)
    {ty : Ty} (hty : ty.classNames ⊆ names) :
    (Expanding.within names count).Maps id (expandFrom r base room ty)
      (expandFrom r base' (room + extra) ty) := by
  induction room generalizing count ty with
  | zero => omega
  | succ room ih =>
    rw [Nat.add_right_comm, expandFrom, expandFrom]
    have henters := aliasRewriter_enters r r (expandFrom r base room)
      (expandFrom r base' (room + extra))
    refine (Expanding.within names count).substitute_same henters ty fun c hc => ?_
    refine aliasRewriter_within htargets fun s memo hs hnew target htarget => ih ?_ htarget
    -- The class is met for the first time, which leaves fewer names of the list to meet.
    have := Expansion.unmet_cons_lt (hty hc) hnew memo
    omega

theorem expandWithin_add
    (htargets : ∀ name target, r.alias? name = some target → target.classNames ⊆ names)
    {room count : Nat} (hroom : count < room) (extra : Nat) {ty : Ty} (hty : ty.classNames ⊆ names) :
    (Expanding.within names count).Maps id (expandWithin r room ty)
      (expandWithin r (room + extra) ty) := by
  rw [← expandFrom_pure, ← expandFrom_pure]
  exact expandFrom_within htargets pure pure hroom extra hty

/-- An expansion comes to its end, whatever was met before. -/
theorem expandFrom_top
    (htargets : ∀ name target, r.alias? name = some target → target.classNames ⊆ names)
    (base base' : Ty → Expanding Ty) (extra : Nat) (ty : Ty) :
    expandFrom r base' (names.length + 1 + extra + 1) ty
      = expandFrom r base (names.length + 1 + 1) ty := by
  have henters := aliasRewriter_enters r r (expandFrom r base (names.length + 1))
    (expandFrom r base' (names.length + 1 + extra))
  have hsame := (Expanding.within names names.length).substitute_same henters ty fun c _ => ?_
  · funext s
    obtain ⟨hval, hstate, -⟩ := hsame s s ⟨rfl, List.countP_le_length⟩
    exact Prod.ext hval hstate
  · refine aliasRewriter_within htargets fun s memo _ _ target htarget => ?_
    exact expandFrom_within htargets base base' (Nat.lt_succ_of_le List.countP_le_length) extra
      htarget

end

/-! Indexes. -/

namespace Index

/-- The indexes that are made step by step. -/
inductive Built : Index → Prop
  | empty : Built {}
  | addClass {ix : Index} (d : ClassDecl) : Built ix → Built (ix.addClass d)
  | addAlias {ix : Index} (d : AliasDecl) : Built ix → Built (ix.addAlias d)
  | addMember {ix : Index} (d : MemberDecl) : Built ix → Built (ix.addMember d)
  | setReady {ix : Index} (ready : Bool) : Built ix → Built { ix with ready }

/-- The index counts the class nodes of its alias targets. -/
theorem Built.targets {ix : Index} (h : ix.Built) : ∃ names : List String,
    names.length = ix.aliasWeight ∧
      ∀ (name : String) (d : AliasDecl), ix.aliases[name]? = some d → d.target.classNames ⊆ names := by
  induction h with
  | empty => exact ⟨[], rfl, by simp⟩
  | addClass d _ ih | addMember d _ ih | setReady ready _ ih => exact ih
  | @addAlias ix d _ ih =>
    obtain ⟨names, hlength, htargets⟩ := ih
    rw [Index.addAlias]
    split
    · exact ⟨names, hlength, htargets⟩
    · refine ⟨names ++ d.target.classNames, by simp [hlength, Ty.classNodes], fun name other h => ?_⟩
      rw [Std.HashMap.getElem?_insert] at h
      split at h
      · obtain rfl : d = other := Option.some_inj.mp h
        exact List.subset_append_right _ _
      · exact List.Subset.trans (htargets name other h) (List.subset_append_left _ _)

theorem Built.tagClass {c : Collecting} (h : c.index.Built) (p : Program) (file : SourceFile)
    (id : NodeId) (cls : DocClass) : (c.tagClass p file id cls).index.Built := by
  simp only [Collecting.tagClass]
  split
  · split <;> exact h.addClass _
  · exact h.addClass _

theorem Built.tags {c : Collecting} (h : c.index.Built) (p : Program) (file : SourceFile)
    (id : NodeId) : (c.tags p file id).index.Built := by
  unfold Collecting.tags
  split
  · exact h
  · rename_i doc _
    refine List.foldlRecOn doc.aliases _ ?_ fun ix hix a _ => hix.addAlias _
    cases doc.class? with
    | none => exact h
    | some cls => exact h.tagClass p file id cls

theorem Built.members {ix : Index} (h : ix.Built) (p : Program) (file : SourceFile)
    (tagged : Std.HashMap String String) (id : NodeId) :
    (Collecting.members p file tagged ix id).Built :=
  List.foldlRecOn _ _ h fun _ hix d _ => hix.addMember d

/-- The index of a program is made step by step. -/
theorem Built.ofProgram (p : Program) : (Index.ofProgram p).Built := by
  refine List.foldlRecOn _ _ ?_ fun ix hix file _ => ?_
  · refine List.foldlRecOn (motive := fun c : Collecting => c.index.Built) _ _ .empty
      fun c hc file _ => ?_
    exact List.foldlRecOn (motive := fun c : Collecting => c.index.Built) _ _ hc
      fun c hc id _ => hc.tags p file id
  · exact List.foldlRecOn _ _ hix fun ix hix id _ => hix.members p file _ id

end Index

/-- The resolver of an index counts the class nodes of its alias targets. -/
theorem Index.Built.resolver_targets {ix : Index} (h : ix.Built) (cancelled : Bool) :
    ∃ names : List String, names.length = (ix.resolver cancelled).aliasWeight ∧
      ∀ (name : String) (target : Ty), (ix.resolver cancelled).alias? name = some target →
        target.classNames ⊆ names := by
  obtain ⟨names, hlength, htargets⟩ := h.targets
  refine ⟨names, hlength, fun name target halias => ?_⟩
  obtain ⟨d, hfind, rfl⟩ := Option.map_eq_some_iff.mp halias
  refine htargets name d ?_
  rw [Index.findAlias?] at hfind
  split at hfind
  · exact hfind
  · simp at hfind

/-- An expansion of aliases comes to its end. -/
theorem Index.Built.expandWithin_add {ix : Index} (h : ix.Built) (cancelled : Bool) (ty : Ty)
    (extra : Nat) :
    expandWithin (ix.resolver cancelled) (ix.aliasWeight + 2 + extra) ty
      = expand (ix.resolver cancelled) ty := by
  obtain ⟨names, hlength, htargets⟩ := h.resolver_targets cancelled
  have htop := expandFrom_top htargets pure pure extra ty
  rw [hlength, Nat.add_right_comm, expandFrom_pure, expandFrom_pure] at htop
  exact htop

end LuaTypes
