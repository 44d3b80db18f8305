import LuaTypes.Infer.Answer
import LuaTypes.Proofs.RenamedDecls

/-!
Requests that mirror each other. Two requests against one program, each with an index and a memo of
its own, give the same types up to the numbers of cells if neither index nor memo ever tells them
apart. What they do between two questions is mirrored here.
-/

namespace LuaTypes

/-- The environment with another index. -/
abbrev Env.withIndex (env : Env) (ix : Index) : Env := { env with index := ix }

/-- Two indexes that requests cannot tell apart: the cells of one request are renamed in the other,
and the memos of both are related. -/
structure Simulation (env : Env) (ix : Index) where
  ρ : CellMap
  Memo : ClassMemo → ClassMemo → Prop
  /-- New cells correspond. -/
  fresh {m m' : ClassMemo} : Memo m m' →
    m'.next = ρ m.next ∧ Memo { m with next := m.next + 1 } { m' with next := m'.next + 1 }
  /-- Reading a class gives the same details. -/
  details {m m' : ClassMemo} (c : ClassTy) : Memo m m' →
    let (d, n) := c.readDetails env.resolver m
    let (d', n') := (c.rename ρ).readDetails (env.withIndex ix).resolver m'
    d' = d ∧ Memo n n'
  doc? (id : NodeId) : (env.program.doc? id).map (Doc.rename ρ) = env.program.doc? id
  findClass? (name : String) : ix.findClass? name = env.index.findClass? name
  alias? (name : String) :
    (env.withIndex ix).resolver.alias? name = (env.resolver.alias? name).map (Ty.rename ρ)
  /-- Either no alias is ever expanded, or the expansions have the same room. -/
  aliasRoom : ix.aliasWeight = env.index.aliasWeight ∨ ∀ name, env.resolver.alias? name = none
  hasMembers (cls : String) : ix.hasMembers cls = env.index.hasMembers cls
  classMembers (cls : String) :
    ix.classMembers cls = (env.index.classMembers cls).map (MemberDecl.rename ρ)
  exact (cls name : String) :
    ix.exact cls name false = (env.index.exact cls name false).map (MemberDecl.rename ρ)

theorem Env.doc?_rename_id (env : Env) (id : NodeId) :
    (env.program.doc? id).map (Doc.rename fun cell => cell) = env.program.doc? id := by
  rw [funext Doc.rename_id, Option.map_id']

/-- A request mirrors itself. -/
def Simulation.refl (env : Env) : Simulation env env.index where
  ρ cell := cell
  Memo := Eq
  fresh := fun h => by rw [h]; exact ⟨rfl, rfl⟩
  details := fun c h => by rw [h, ClassTy.rename_id]; exact ⟨rfl, rfl⟩
  doc? := env.doc?_rename_id
  findClass? := fun _ => rfl
  alias? := fun name => by rw [funext Ty.rename_id, Option.map_id']
  aliasRoom := .inl rfl
  hasMembers := fun _ => rfl
  classMembers := fun cls => (MemberDecl.map_rename_id _).symm
  exact := fun cls name => (MemberDecl.map_rename_id _).symm

/-- Without aliases no class stands for another type. -/
theorem ClassTy.aliasTarget?_eq_none {r : Resolver} (h : ∀ name, r.alias? name = none)
    (c : ClassTy) (memo : ClassMemo) : (c.aliasTarget? r memo).1 = none := by
  simp only [ClassTy.aliasTarget?, h, ite_self]
  split
  · rfl
  · rcases hread : c.alias? r memo with ⟨other?, memo'⟩
    simp only [bind, StateT.bind, hread]
    cases other? <;> rfl

/-- Without aliases nothing is expanded, so that the room for it does not matter. -/
theorem expandWithin_of_no_alias {r : Resolver} (h : ∀ name, r.alias? name = none) (room : Nat)
    (ty : Ty) : expandWithin r (room + 1) ty = expandWithin r 1 ty := by
  simp only [expandWithin, aliasRewriter]
  congr 2
  funext c
  refine congrArg (Expanding.visit c.name >>= ·) (funext fun isNew => ?_)
  cases isNew with
  | false => rfl
  | true =>
    funext s
    rcases hread : c.aliasTarget? r s.memo with ⟨target?, memo⟩
    obtain rfl : target? = none := by rw [← c.aliasTarget?_eq_none h s.memo, hread]
    simp [bind, StateT.bind, Expanding.read, StateT.run, hread]

namespace Simulation

variable {env : Env} {ix : Index} (S : Simulation env ix)

include S in
theorem details? (name : String) :
    (env.withIndex ix).resolver.details? name = env.resolver.details? name :=
  congrArg (Option.map ClassDecl.details) (S.findClass? name)

/-! Reading class details. -/

def reading : Lifting Reading Reading := .ofStates S.Memo

theorem freshCell_maps : S.reading.Maps S.ρ freshCell freshCell := fun _ _ h => S.fresh h

theorem newClass_maps (name : String) :
    S.reading.Maps (ClassTy.rename S.ρ) (newClass name) (newClass name) :=
  S.reading.bind S.freshCell_maps fun cell => S.reading.pure (ClassTy.rename S.ρ) (.deferred name cell)

theorem readDetails_maps (c : ClassTy) :
    S.reading.Maps id (c.readDetails env.resolver)
      ((c.rename S.ρ).readDetails (env.withIndex ix).resolver) :=
  fun _ _ h => S.details c h

theorem generics_maps (c : ClassTy) :
    S.reading.Maps id (c.generics env.resolver)
      ((c.rename S.ρ).generics (env.withIndex ix).resolver) :=
  S.reading.bind (S.readDetails_maps c) fun d => S.reading.pure id d.generics

theorem alias?_maps (c : ClassTy) :
    S.reading.Maps id (c.alias? env.resolver)
      ((c.rename S.ρ).alias? (env.withIndex ix).resolver) :=
  S.reading.bind (S.readDetails_maps c) fun d => S.reading.pure id d.alias?

theorem superTy?_rename (name : String) :
    (env.withIndex ix).resolver.superTy? name = (env.resolver.superTy? name).map (Ty.rename S.ρ) := by
  rw [Resolver.superTy?, Resolver.superTy?, S.details?, builtin?]
  cases Prim.ofName? name with
  | some p => rfl
  | none =>
    by_cases h : name = tableWord
    · simp [h, Ty.table, ClassTy.universalTable]
    · simp [h, Function.comp_def]

theorem superOf?_rename (d : ClassDetails) :
    (env.withIndex ix).resolver.superOf? d = (env.resolver.superOf? d).map (Ty.rename S.ρ) := by
  have hsupers : d.supers.filterMap (env.withIndex ix).resolver.superTy?
      = (d.supers.filterMap env.resolver.superTy?).map (Ty.rename S.ρ) := by
    rw [List.map_filterMap]
    exact congrArg (List.filterMap · _) (funext S.superTy?_rename)
  rw [Resolver.superOf?, Resolver.superOf?, hsupers, ← UnionBuilder.type?_rename,
    ← UnionBuilder.foldl_add_rename]
  rfl

/-! Expanding aliases. -/

def expanding : Lifting Expanding Expanding :=
  .ofStates fun s t => t.visited = s.visited ∧ S.Memo s.memo t.memo

theorem visit_maps (name : String) :
    S.expanding.Maps id (Expanding.visit name) (Expanding.visit name) := by
  rintro s t ⟨hvisited, hmemo⟩
  simp only [Expanding.visit, hvisited]
  split
  · exact ⟨rfl, hvisited, hmemo⟩
  · exact ⟨rfl, rfl, hmemo⟩

theorem expandingRead_maps {α β : Type} {φ : α → β} {x : Reading α} {y : Reading β}
    (h : S.reading.Maps φ x y) : S.expanding.Maps φ (Expanding.read x) (Expanding.read y) := by
  rintro s t ⟨hvisited, hmemo⟩
  obtain ⟨hval, hmemo⟩ := h s.memo t.memo hmemo
  exact ⟨hval, hvisited, hmemo⟩

theorem aliasTarget?_maps (c : ClassTy) :
    S.reading.Maps (Option.map (Ty.rename S.ρ)) (c.aliasTarget? env.resolver)
      ((c.rename S.ρ).aliasTarget? (env.withIndex ix).resolver) := by
  have hnone := S.reading.pure (Option.map (Ty.rename S.ρ)) none
  simp only [ClassTy.aliasTarget?, ClassTy.rename_isGlobal, ClassTy.rename_isAnonymous,
    ClassTy.rename_isDocTable, ClassTy.rename_name, S.alias?]
  split
  · exact hnone
  · cases env.resolver.alias? c.name with
    | some target => exact S.reading.pure (Option.map (Ty.rename S.ρ)) (some target)
    | none =>
      refine S.reading.bind (S.alias?_maps c) fun other? => ?_
      cases other? with
      | none => exact hnone
      | some other =>
        have := S.reading.pure (Option.map (Ty.rename S.ρ))
          (if other = c.name then none else env.resolver.alias? other)
        simpa [apply_ite, S.alias?] using this

theorem expandWithin_maps (room : Nat) (ty : Ty) :
    S.expanding.Maps (Ty.rename S.ρ) (expandWithin env.resolver room ty)
      (expandWithin (env.withIndex ix).resolver room (ty.rename S.ρ)) := by
  induction room generalizing ty with
  | zero => exact S.expanding.pure (Ty.rename S.ρ) ty
  | succ room ih =>
    refine S.expanding.substitute S.ρ (aliasRewriter_enters _ _ _ _) ty fun c _ => ?_
    simp only [aliasRewriter, ClassTy.rename_name]
    refine S.expanding.bind (S.visit_maps c.name) fun isNew => ?_
    cases isNew with
    | false => exact S.expanding.pure (Option.map (Ty.rename S.ρ)) none
    | true =>
      refine S.expanding.bind (S.expandingRead_maps (S.aliasTarget?_maps c)) fun target? => ?_
      cases target? with
      | none => exact S.expanding.pure (Option.map (Ty.rename S.ρ)) (some (.cls c))
      | some target =>
        refine S.expanding.bind (ih target) fun expanded => ?_
        rw [← Ty.rename_cls, Ty.join_rename]
        exact S.expanding.pure (Option.map (Ty.rename S.ρ)) (some (expanded.join (.cls c)))

theorem expandAliases_maps (ty : Ty) :
    S.reading.Maps (Ty.rename S.ρ) (expandAliases env.resolver ty)
      (expandAliases (env.withIndex ix).resolver (ty.rename S.ρ)) := by
  intro m m' h
  have hroom : expand (env.withIndex ix).resolver (ty.rename S.ρ)
      = expandWithin (env.withIndex ix).resolver (env.resolver.aliasWeight + 2) (ty.rename S.ρ) := by
    -- Where the room differs, nothing is expanded.
    cases S.aliasRoom with
    | inl hweight => exact congrArg (expandWithin _ · _) (congrArg (· + 2) hweight)
    | inr hnone =>
      have hnone' : ∀ name, (env.withIndex ix).resolver.alias? name = none := fun name => by
        rw [S.alias?, hnone]; rfl
      rw [expand, expandWithin_of_no_alias hnone', ← expandWithin_of_no_alias hnone']
  obtain ⟨hval, -, hmemo⟩ :=
    S.expandWithin_maps (env.resolver.aliasWeight + 2) ty { memo := m } { memo := m' } ⟨rfl, h⟩
  rw [expandAliases, expandAliases, hroom]
  exact ⟨hval, hmemo⟩

/-! Computations that ask nothing. -/

/-- The states of two requests agree, while they have the guards `g` and `depth` chains are in the
making. -/
structure State (g : Guard Key × Guard Key) (depth : Nat) (s t : Request) : Prop where
  memo : S.Memo s.memo t.memo
  guard : s.guard = g.1
  guard' : t.guard = g.2
  chainDepth : t.chainDepth = s.chainDepth
  depth : s.chainDepth.depth = depth
  limit : s.chainDepth.maxDepth = maxChainDepth
  chains (name : String) : t.chains[name]? = s.chains[name]?.map (MemberChain.rename S.ρ)

/-- Nothing that asks no questions changes the guards or leaves a chain half made. -/
def infer : Lifting Infer Infer :=
  .all fun i : (Guard Key × Guard Key) × Nat => .ofStates (S.State i.1 i.2)

theorem inferRead_maps {α β : Type} {φ : α → β} {x : Reading α} {y : Reading β}
    (h : S.reading.Maps φ x y) : S.infer.Maps φ (Infer.read x) (Infer.read y) := by
  rintro ⟨g, depth⟩ s t hstate
  obtain ⟨hval, hmemo⟩ := h s.memo t.memo hstate.memo
  exact ⟨hval, { hstate with memo := hmemo }⟩

theorem expand_maps (ty : Ty) :
    S.infer.Maps (Ty.rename S.ρ) (Infer.expand env ty)
      (Infer.expand (env.withIndex ix) (ty.rename S.ρ)) :=
  S.inferRead_maps (S.expandAliases_maps ty)

/-- The expansion of a type without cells to rename. -/
theorem expand_fixed_maps {ty : Ty} (h : ty.rename S.ρ = ty) :
    S.infer.Maps (Ty.rename S.ρ) (Infer.expand env ty) (Infer.expand (env.withIndex ix) ty) := by
  have := S.expand_maps ty
  rwa [h] at this

theorem functionDoc?_rename (func : NodeId) :
    (env.program.functionDoc? func).map (Doc.rename S.ρ) = env.program.functionDoc? func := by
  simp only [Program.functionDoc?, Option.bind_eq_bind]
  cases env.program.node? func with
  | none => rfl
  | some node =>
    cases node with
    | closure body =>
      cases env.program.parent? func with
      | none => rfl
      | some parent =>
        simp only [Option.bind_some]
        cases env.program.node? parent with
        | none => rfl
        | some node => cases node <;> first | exact S.doc? parent | rfl
    | _ => exact S.doc? func

/-- A type that a comment gives has no cells to rename if the comment has none. -/
theorem documented_fixed {doc? : Option Doc} (hdoc : doc?.map (Doc.rename S.ρ) = doc?)
    {f : Doc → Option Ty} (hf : ∀ doc, f (doc.rename S.ρ) = (f doc).map (Ty.rename S.ρ)) {ty : Ty}
    (h : doc? >>= f = some ty) : ty.rename S.ρ = ty := by
  cases doc? with
  | none => simp at h
  | some doc =>
    have hfixed : doc.rename S.ρ = doc := Option.some_inj.mp hdoc
    have hty : f doc = some ty := h
    have := hf doc
    rw [hfixed, hty, Option.map_some, Option.some_inj] at this
    exact this.symm

theorem declaredTy?_maps (id : NodeId) :
    S.infer.Maps (Option.map (Ty.rename S.ρ)) (declaredTy? env id)
      (declaredTy? (env.withIndex ix) id) := by
  have hnone := S.infer.pure (Option.map (Ty.rename S.ρ)) none
  have hdoc := S.doc? id
  unfold declaredTy?
  cases h : env.program.doc? id with
  | none => exact hnone
  | some doc =>
    rw [h, Option.map_some, Option.some_inj] at hdoc
    have htype : doc.type?.map (Ty.rename S.ρ) = doc.type? := congrArg Doc.type? hdoc
    simp only
    cases doc.class? with
    | some c => exact S.infer.pure (Option.map (Ty.rename S.ρ)) (some c.ty)
    | none =>
      cases h : doc.type? with
      | none => exact hnone
      | some ty =>
        rw [h] at htype
        exact S.infer.map (S.expand_fixed_maps (Option.some_inj.mp htype)) fun _ => rfl

theorem paramTy_maps {doc? : Option Doc} (hdoc : doc?.map (Doc.rename S.ρ) = doc?)
    (name : String) :
    S.infer.Maps (Ty.rename S.ρ) (paramTy env doc? name)
      (paramTy (env.withIndex ix) doc? name) := by
  unfold paramTy
  cases h : doc? >>= (·.paramTy? name) with
  | none => exact S.infer.pure (Ty.rename S.ρ) .unknown
  | some ty =>
    exact S.expand_fixed_maps (S.documented_fixed hdoc (fun doc => doc.paramTy?_rename S.ρ name) h)

theorem furtherTy_maps {doc? : Option Doc} (hdoc : doc?.map (Doc.rename S.ρ) = doc?) :
    S.infer.Maps (Ty.rename S.ρ) (furtherTy env doc?) (furtherTy (env.withIndex ix) doc?) := by
  unfold furtherTy
  cases h : doc? >>= (·.vararg?) with
  | none => exact S.infer.pure (Ty.rename S.ρ) .unknown
  | some ty => exact S.expand_fixed_maps (S.documented_fixed hdoc (fun _ => rfl) h)

theorem varargTy?_maps (id : NodeId) :
    S.infer.Maps (Option.map (Ty.rename S.ρ)) (varargTy? env id)
      (varargTy? (env.withIndex ix) id) := by
  have hdoc : (env.program.enclosingFunction? id >>= env.program.functionDoc?).map (Doc.rename S.ρ)
      = env.program.enclosingFunction? id >>= env.program.functionDoc? := by
    cases env.program.enclosingFunction? id with
    | none => rfl
    | some func => exact S.functionDoc?_rename func
  unfold varargTy?
  cases h : env.program.enclosingFunction? id >>= env.program.functionDoc? >>= (·.vararg?) with
  | none => exact S.infer.pure (Option.map (Ty.rename S.ρ)) none
  | some ty =>
    have hty : ty.rename S.ρ = ty := S.documented_fixed hdoc (fun _ => rfl) h
    exact S.infer.map (S.expand_fixed_maps hty) fun _ => rfl

theorem paramTys_maps {doc? : Option Doc} (hdoc : doc?.map (Doc.rename S.ρ) = doc?)
    (params : List NodeId) :
    S.infer.Maps (List.map (Field.rename S.ρ)) (paramTys env doc? params)
      (paramTys (env.withIndex ix) doc? params) := by
  unfold paramTys
  have := S.infer.mapM (φ := Field.rename S.ρ) id
    (f := fun name => do return ⟨name, ← paramTy env doc? name⟩)
    (g := fun name => do return ⟨name, ← paramTy (env.withIndex ix) doc? name⟩)
    (params.filterMap fun id => env.program.node? id >>= (·.declaredName?)) fun name _ =>
      S.infer.bind (S.paramTy_maps hdoc name) fun ty => S.infer.pure (Field.rename S.ρ) ⟨name, ty⟩
  rwa [List.map_id] at this

theorem literalTy_maps (id : NodeId) (value : Literal) :
    S.infer.Maps (Ty.rename S.ρ) (literalTy env id value)
      (literalTy (env.withIndex ix) id value) := by
  cases value with
  | vararg =>
    refine S.infer.bind (S.varargTy?_maps id) fun ty? => ?_
    cases ty? with
    | none => exact S.infer.pure (Ty.rename S.ρ) .unknown
    | some ty => exact S.infer.pure (Ty.rename S.ρ) ty
  | _ => exact S.infer.pure (Ty.rename S.ρ) _

theorem tableTy_maps (id : NodeId) (fields : List NodeId) :
    S.infer.Maps (Ty.rename S.ρ) (tableTy env id fields)
      (tableTy (env.withIndex ix) id fields) := by
  have helement : S.infer.Maps (Option.map (Ty.rename S.ρ))
      (if collectsVararg env fields then varargTy? env id else pure none)
      (if collectsVararg env fields then varargTy? (env.withIndex ix) id else pure none) := by
    split
    · exact S.varargTy?_maps id
    · exact S.infer.pure (Option.map (Ty.rename S.ρ)) none
  have hclass : (literalClassTy env id fields).rename S.ρ = literalClassTy env id fields := by
    unfold literalClassTy
    cases env.program.fileOf? id <;> rfl
  refine S.infer.bind helement fun element? => ?_
  cases element? with
  | none =>
    have := S.infer.pure (Ty.rename S.ρ) (literalClassTy env id fields)
    rwa [hclass] at this
  | some element => exact S.infer.pure (Ty.rename S.ρ) (.array element)

theorem candidate?_maps (ty : Ty) :
    S.infer.Maps (Option.map (Candidate.rename S.ρ)) (candidate? ty) (candidate? (ty.rename S.ρ)) := by
  have hpure := S.infer.pure (Option.map (Candidate.rename S.ρ))
  cases ty with
  | cls c => exact hpure (some ⟨c, none⟩)
  | generic base args =>
    have := hpure (base.asClass?.map fun c => ⟨c, some args⟩)
    simpa [candidate?, Candidate.rename, Function.comp_def] using this
  | prim p =>
    cases p with
    | string =>
      refine S.infer.bind (S.inferRead_maps (S.newClass_maps stringWord)) fun c => ?_
      exact hpure (some ⟨c, none⟩)
    | _ => exact hpure none
  | _ => exact hpure none

theorem candidates_maps (ty : Ty) :
    S.infer.Maps (List.map (Candidate.rename S.ρ)) (candidates ty) (candidates (ty.rename S.ρ)) := by
  have heach := S.infer.mapM (Ty.rename S.ρ) ty.each fun member _ => S.candidate?_maps member
  unfold candidates
  rw [Ty.each_rename]
  refine S.infer.bind heach fun found => ?_
  have := S.infer.pure (List.map (Candidate.rename S.ρ)) (found.filterMap id)
  simpa [List.map_filterMap, List.filterMap_map] using this

theorem ofArgs_rename (names : List String) (args : List Ty) :
    Bindings.ofArgs names (args.map (Ty.rename S.ρ)) = (Bindings.ofArgs names args).rename S.ρ := by
  simp only [Bindings.ofArgs, typeArg_rename, Bindings.rename, OrderedMap.map_foldl_insert]
  rfl

theorem instantiate_maps (c : Candidate) (ty : Ty) :
    S.infer.Maps (Ty.rename S.ρ) (c.instantiate env ty)
      ((c.rename S.ρ).instantiate (env.withIndex ix) (ty.rename S.ρ)) := by
  obtain ⟨cls, args?⟩ := c
  cases args? with
  | none => exact S.infer.pure (Ty.rename S.ρ) ty
  | some args =>
    refine S.infer.bind (S.inferRead_maps (S.generics_maps cls)) fun names => ?_
    simp only [id]
    split
    · exact S.infer.pure (Ty.rename S.ρ) ty
    · have := S.infer.pure (Ty.rename S.ρ) ((Bindings.ofArgs names args).apply ty)
      rw [← Bindings.apply_rename, ← S.ofArgs_rename] at this
      exact this

/-! Binding type parameters. -/

theorem orBound_maps (bindings : Bindings) (p : TypeParam) :
    S.reading.Maps (Bindings.rename S.ρ) (Unifier.orBound bindings p)
      (Unifier.orBound (bindings.rename S.ρ) p) := by
  have hsame := S.reading.pure (Bindings.rename S.ρ) bindings
  simp only [Unifier.orBound, OrderedMap.get?_map]
  cases p.bound? with
  | none => exact hsame
  | some bound =>
    cases bindings.get? p.name with
    | none => exact hsame
    | some ty =>
      simp only [Option.map_some, Ty.isInvalid_rename]
      split
      · refine S.reading.bind (S.newClass_maps bound) fun c => ?_
        have := S.reading.pure (Bindings.rename S.ρ) (bindings.insert p.name (.cls c))
        rwa [Bindings.rename, OrderedMap.map_insert] at this
      · exact hsame

theorem finish_maps (u : Unifier) (sig : Signature) :
    S.reading.Maps (Bindings.rename S.ρ) (u.finish sig)
      ((u.rename S.ρ).finish (sig.rename S.ρ)) := by
  have hbounds := S.reading.foldlM (φ := Bindings.rename S.ρ) id (f := Unifier.orBound)
    (g := Unifier.orBound) sig.typeParams (fun b p _ => S.orBound_maps b p) u.bindings
  rw [List.map_id] at hbounds
  unfold Unifier.finish
  rw [Signature.rename_typeParams]
  refine S.reading.bind hbounds fun b => ?_
  have := S.reading.pure (Bindings.rename S.ρ) (b.filter (!·.isInvalid))
  rwa [Bindings.rename, OrderedMap.map_filter (q := (!·.isInvalid)) (Ty.rename S.ρ) b
    fun ty => congrArg not (ty.isInvalid_rename S.ρ).symm] at this

theorem bindArgs?_maps (sig : Signature) (args : List Ty) :
    S.reading.Maps (Option.map (Bindings.rename S.ρ)) (sig.bindArgs? args)
      ((sig.rename S.ρ).bindArgs? (args.map (Ty.rename S.ρ))) := by
  unfold Signature.bindArgs?
  rw [Signature.rename_isGeneric, Signature.unifier_rename]
  split
  · exact S.reading.pure (Option.map (Bindings.rename S.ρ)) none
  · refine S.reading.bind (S.finish_maps (sig.unifier args) sig) fun b => ?_
    exact S.reading.pure (Option.map (Bindings.rename S.ρ)) (some b)

end Simulation

end LuaTypes
