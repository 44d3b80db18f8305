import LuaTypes.Proofs.InvariantChains

/-!
Every answer has the property of an invariant that the comments keep.
-/

namespace LuaTypes

/-- The computation gives a type with the property. -/
abbrev Asking.Keeps (x : Asking Ty) (T : TyInvariant) : Prop := T.asking.Ensures T.Holds x

/-! Comments. -/

namespace Doc.Keeps

variable {T : TyInvariant} {doc : Doc} (h : doc.Keeps T)

include h

theorem type {ty : Ty} (hty : doc.type? = some ty) : T.Holds ty :=
  h.types ty (by simp [Doc.types, hty])

theorem param {name : String} {ty : Ty} (hty : doc.paramTy? name = some ty) : T.Holds ty := by
  obtain ⟨f, hf, rfl⟩ := Option.map_eq_some_iff.mp hty
  have hmem : f.ty ∈ doc.params.map (·.ty) := List.mem_map_of_mem (List.mem_of_find?_eq_some hf)
  exact h.types f.ty (by simp only [Doc.types, List.mem_append]; grind)

theorem vararg {ty : Ty} (hty : doc.vararg? = some ty) : T.Holds ty :=
  h.types ty (by simp [Doc.types, hty])

theorem returned {ty : Ty} (hty : ty ∈ doc.returns) : T.Holds ty :=
  h.types ty (by simp [Doc.types, hty])

theorem overload {sig : Signature} (hsig : sig ∈ doc.overloads) : T.Sig sig := by
  have htypes : ∀ ty ∈ sig.types, T.Holds ty := by
    intro ty hty
    have hmem : ty ∈ doc.overloads.flatMap (·.types) := List.mem_flatMap.mpr ⟨sig, hsig, hty⟩
    exact h.types ty (by simp only [Doc.types, List.mem_append]; grind)
  exact TyInvariant.sig_of_types htypes (h.overloads sig hsig)

end Doc.Keeps

theorem Program.exists_functionDoc? {p : Program} {func : NodeId} {doc : Doc}
    (h : p.functionDoc? func = some doc) : ∃ id, p.doc? id = some doc := by
  obtain ⟨node, hnode, h⟩ := Option.bind_eq_some_iff.mp h
  cases node with
  | closure body =>
    obtain ⟨parent, -, h⟩ := Option.bind_eq_some_iff.mp h
    obtain ⟨node, -, h⟩ := Option.bind_eq_some_iff.mp h
    cases node with
    | localDef _ _ | assign _ _ | tableField _ _ => exact ⟨parent, h⟩
    | _ => cases h
  | _ => exact ⟨func, h⟩

namespace Env.Keeps

variable {T : TyInvariant} {env : Env} (h : env.Keeps T)

theorem unknown : Asking.Keeps (return .unknown) T := T.asking.pure T.unknown

/-- One value of a node. -/
theorem askNth (id : NodeId) (index : Nat) : (ask (.value id (.nth index))).Keeps T :=
  T.asking.imp (T.discipline.ask (q := .value id (.nth index)) trivial) fun _ hty => hty.1

theorem valueTy (id : NodeId) : (valueTy id).Keeps T := askNth id 0

theorem listedTy (values : List NodeId) (index : Nat) : (listedTy values index).Keeps T := by
  unfold LuaTypes.listedTy
  split
  · exact valueTy _
  · exact askNth _ _
  · exact unknown

include h

theorem doc {id : NodeId} {doc : Doc} (hdoc : env.program.doc? id = some doc) : doc.Keeps T :=
  h.program id doc hdoc

theorem functionDoc {func : NodeId} {doc : Doc} (hdoc : env.program.functionDoc? func = some doc) :
    doc.Keeps T := by
  obtain ⟨id, hid⟩ := Program.exists_functionDoc? hdoc
  exact h.doc hid

theorem declaredTy? (id : NodeId) :
    T.infer.Ensures (fun ty? => ∀ ty ∈ ty?, T.Holds ty) (declaredTy? env id) := by
  unfold LuaTypes.declaredTy?
  split
  · exact T.infer.pure nofun
  · rename_i doc hdoc
    split
    · apply T.infer.pure
      rintro _ ⟨⟩
      exact .cls_of_docFields rfl
    · rename_i ty _ hty
      apply T.infer.map (h.expand ((h.doc hdoc).type hty))
      rintro ty hty _ ⟨⟩
      exact hty
    · exact T.infer.pure nofun

theorem paramTy (func : NodeId) (name : String) :
    T.infer.Ensures T.Holds (paramTy env (env.program.functionDoc? func) name) := by
  unfold LuaTypes.paramTy
  split
  · rename_i ty hty
    obtain ⟨doc, hdoc, hty⟩ := Option.bind_eq_some_iff.mp hty
    exact h.expand ((h.functionDoc hdoc).param hty)
  · exact T.infer.pure T.unknown

theorem varargTy? (id : NodeId) :
    T.infer.Ensures (fun ty? => ∀ ty ∈ ty?, T.Holds ty) (varargTy? env id) := by
  unfold LuaTypes.varargTy?
  split
  · rename_i ty hty
    obtain ⟨doc, hdoc, hty⟩ := Option.bind_eq_some_iff.mp hty
    obtain ⟨func, -, hdoc⟩ := Option.bind_eq_some_iff.mp hdoc
    apply T.infer.map (h.expand ((h.functionDoc hdoc).vararg hty))
    rintro ty hty _ ⟨⟩
    exact hty
  · exact T.infer.pure nofun

/-! Members and globals. -/

theorem assignedTy (target : NodeId) : (assignedTy env target).Keeps T := by
  unfold LuaTypes.assignedTy
  split
  · exact unknown
  · split
    · apply T.asking.bind (T.discipline.ofInfer (h.declaredTy? _))
      intro declared? hdeclared
      have hty : T.Holds (declared?.getD .unknown) := by
        cases declared? with
        | none => exact T.unknown
        | some ty => exact hdeclared ty rfl
      dsimp only
      split
      · exact T.asking.pure hty
      · split
        · exact T.asking.pure hty
        · apply T.asking.bind (T.discipline.ask (q := .listed _ _ _) trivial)
          intro ty' hty'
          exact T.asking.pure (hty.join hty')
    · exact unknown

theorem memberTy {d : MemberDecl} (hd : d.Keeps T) : (memberTy env d).Keeps T := by
  obtain ⟨name, className, origin, file, offset, stdLib, authoritative⟩ := d
  cases origin with
  | method node | funcDef node | tableField node => exact valueTy node
  | docField ty | docTableField ty => exact T.discipline.ofInfer (h.expand (hd ty rfl))
  | assign target | globalAssign target => exact h.assignedTy target

omit h in
theorem globalTy (name : String) : (globalTy env name).Keeps T := by
  apply T.asking.bind (T.discipline.ask (q := .globalDecls name) trivial)
  intro declared hdeclared
  split
  · exact T.asking.pure hdeclared
  · have hty := hdeclared.join (.cls_of_docFields (c := .global name) rfl)
    dsimp only
    split
    · apply T.asking.bind (P := fun _ => True)
      · exact T.discipline.ofInfer fun s hs => ⟨trivial, hs⟩
      · intro cell _
        exact T.asking.pure (hty.join (.cls_of_docFields rfl))
    · exact T.asking.pure hty

theorem globalDeclsTy (name : String) : (globalDeclsTy env name).Keeps T := by
  apply T.discipline.unionOf T.unknown
  intro ty hty d hd
  exact T.asking.imp (h.memberTy (h.exact d hd)) fun _ hfound => hty.join hfound

omit h in
theorem mem_firstOfEachPlace {seen : List (FileId × Nat)} {decls : List MemberDecl} {d : MemberDecl}
    (hd : d ∈ firstOfEachPlace seen decls) : d ∈ decls := by
  induction decls generalizing seen with
  | nil => cases hd
  | cons other rest ih =>
    rw [firstOfEachPlace] at hd
    split at hd
    · exact List.mem_cons_of_mem other (ih hd)
    · rcases List.mem_cons.mp hd with rfl | hd
      · exact List.mem_cons_self
      · exact List.mem_cons_of_mem other (ih hd)

theorem declsTy (use : Use) {ty : Ty} (hty : T.Holds ty) {decls : List MemberDecl}
    (hdecls : ∀ d ∈ decls, d.Keeps T) : (declsTy env use ty decls).Keeps T := by
  induction decls generalizing ty with
  | nil => exact T.asking.pure hty
  | cons d rest ih =>
    obtain ⟨hd, hrest⟩ := List.forall_mem_cons.mp hdecls
    have hmember := h.memberTy hd
    obtain ⟨name, className, origin, file, offset, stdLib, authoritative⟩ := d
    cases origin with
    | method node | funcDef node =>
      apply T.asking.bind (P := T.Holds)
      · split
        · exact T.asking.pure hty
        · exact T.asking.map hmember fun _ hfound => hty.join hfound
      · intro ty hty
        split
        · exact T.asking.pure hty
        · exact ih hty hrest
    | docField documented =>
      apply T.asking.bind hmember
      intro found hfound
      dsimp only
      split
      · split
        · exact T.asking.pure (hty.join hfound)
        · exact ih hty hrest
      · split
        · exact T.asking.pure (hty.join hfound)
        · exact ih (hty.join hfound) hrest
    | docTableField _ | tableField _ =>
      apply T.asking.bind hmember
      intro found hfound
      dsimp only
      split
      · exact T.asking.pure (hty.join hfound)
      · exact ih (hty.join hfound) hrest
    | assign _ | globalAssign _ =>
      apply T.asking.bind hmember
      intro found hfound
      exact ih (hty.join hfound) hrest

theorem fieldTy {c : ClassTy} (hc : T.Holds (.cls c)) (name : String) (use : Use) :
    (fieldTy env c name use).Keeps T := by
  unfold LuaTypes.fieldTy
  split
  · exact globalTy name
  · apply T.asking.bind (T.discipline.ofInfer (h.findMember hc name))
    intro winner? hwinner
    cases winner? with
    | none => exact unknown
    | some winner =>
      dsimp only
      split
      · exact unknown
      · apply h.declsTy use T.unknown
        intro d hd
        rcases List.mem_cons.mp (mem_firstOfEachPlace hd) with rfl | hd
        · exact hwinner d rfl
        · exact h.exact d hd

end Env.Keeps

/-! Look-ups. -/

structure Candidate.Keeps (c : Candidate) (T : TyInvariant) : Prop where
  cls : T.Holds (.cls c.cls)
  args : ∀ args ∈ c.args?, ∀ arg ∈ args, T.Holds arg

section

variable {T : TyInvariant}

theorem candidate?_holds {ty : Ty} (h : T.Holds ty) :
    T.infer.Ensures (fun c? => ∀ c ∈ c?, c.Keeps T) (candidate? ty) := by
  unfold candidate?
  split
  · apply T.infer.pure
    rintro _ ⟨⟩
    exact ⟨h, nofun⟩
  · rename_i base args
    apply T.infer.pure
    rintro c hc
    obtain ⟨cls, hcls, rfl⟩ := Option.map_eq_some_iff.mp hc
    obtain ⟨hbase, hargs⟩ := T.generic.mp h
    constructor
    · cases base with
      | cls d =>
        obtain rfl : d = cls := Option.some_inj.mp hcls
        exact hbase
      | _ => cases hcls
    · rintro _ ⟨⟩
      exact hargs
  · apply T.infer.bind (Reading.keeping.read (newClass_holds stringWord))
    intro c hc
    apply T.infer.pure
    rintro _ ⟨⟩
    exact ⟨hc, nofun⟩
  · exact T.infer.pure nofun

theorem candidates_holds {ty : Ty} (h : T.Holds ty) :
    T.infer.Ensures (fun cs => ∀ c ∈ cs, c.Keeps T) (candidates ty) := by
  apply T.infer.bind
    (T.infer.mapM ty.each fun member hm => candidate?_holds (h.each member hm))
  intro found? hfound
  apply T.infer.pure
  intro c hc
  obtain ⟨c?, hmem, rfl⟩ := List.mem_filterMap.mp hc
  exact hfound (some c) hmem c rfl

end

namespace Env.Keeps

variable {T : TyInvariant} {env : Env}

theorem instantiate {c : Candidate} (hc : c.Keeps T) {ty : Ty} (hty : T.Holds ty) :
    T.infer.Ensures T.Holds (c.instantiate env ty) := by
  unfold Candidate.instantiate
  split
  · exact T.infer.pure hty
  · rename_i args hargs
    apply T.infer.bind (P := fun _ => True) fun s hs => ⟨trivial, hs⟩
    intro names _
    split
    · exact T.infer.pure hty
    · exact T.infer.pure ((Bindings.apply_keeps (Bindings.ofArgs_all names (hc.args args hargs)) ty).1 hty)

theorem candidateFieldTy (name : String) (use : Use) {c : Candidate} (hc : c.Keeps T) :
    (c.fieldTy env name use).Keeps T := by
  apply T.asking.bind (P := T.Holds)
  · split
    · exact globalTy name
    · exact T.discipline.ask (q := .field c.cls name use) hc.cls
  · intro found hfound
    exact T.discipline.ofInfer (instantiate hc hfound)

theorem lookupTy {ty : Ty} (hty : T.Holds ty) (name : String) (use : Use) :
    (lookupTy env ty name use).Keeps T := by
  have hfound {cs : List Candidate} (hcs : ∀ c ∈ cs, c.Keeps T) :
      (Asking.unionOf env (Candidate.fieldTy env name use) cs).Keeps T := by
    apply T.discipline.unionOf T.unknown
    intro ty hty c hc
    exact T.asking.imp (candidateFieldTy name use (hcs c hc)) fun _ hfound => hty.join hfound
  apply T.asking.bind (T.discipline.ofInfer (candidates_holds hty))
  intro all hall
  apply T.asking.bind (hfound fun c hc => hall c (List.mem_filter.mp hc).1)
  intro found hlibrary
  split
  · apply T.asking.bind (hfound fun c hc => hall c (List.mem_filter.mp hc).1)
    intro rest hrest
    exact T.asking.pure (hlibrary.join hrest)
  · exact T.asking.pure hlibrary

end Env.Keeps

/-! Functions. -/

namespace Env.Keeps

variable {T : TyInvariant} {env : Env} (h : env.Keeps T)

include h

theorem paramTys (func : NodeId) (params : List NodeId) :
    T.infer.Ensures (fun params => ∀ p ∈ params, T.Holds p.ty)
      (paramTys env (env.program.functionDoc? func) params) := by
  apply T.infer.mapM
  intro name _
  apply T.infer.bind (h.paramTy func name)
  intro ty hty
  exact T.infer.pure hty

theorem furtherTy (func : NodeId) :
    T.infer.Ensures T.Holds (furtherTy env (env.program.functionDoc? func)) := by
  unfold LuaTypes.furtherTy
  split
  · rename_i ty hty
    obtain ⟨doc, hdoc, hty⟩ := Option.bind_eq_some_iff.mp hty
    exact h.expand ((h.functionDoc hdoc).vararg hty)
  · exact T.infer.pure T.unknown

theorem resultTy {func : NodeId} {node : Node} {body : FuncBody}
    (hnode : env.program.node? func = some node) (hbody : node.funcBody? = some body) :
    T.asking.Ensures T.Returns (resultTy env (env.program.functionDoc? func) body.block) := by
  have hreturns : ∀ ty ∈ (env.program.functionDoc? func).elim [] (·.returns), T.Holds ty := by
    cases hdoc : env.program.functionDoc? func with
    | none => nofun
    | some doc => exact fun ty hty => (h.functionDoc hdoc).returned hty
  unfold LuaTypes.resultTy
  split
  · rename_i heq
    exact h.bodies func node body hnode hbody heq
  · rename_i ty heq
    rw [heq] at hreturns
    have hty := T.discipline.ofInfer (h.expand (hreturns ty (List.mem_singleton_self ty)))
    exact T.asking.imp hty fun _ hty => hty.returned
  · apply T.discipline.ofInfer
    apply T.infer.map
    · exact T.infer.mapM _ fun ty hty => h.expand (hreturns ty hty)
    · exact fun types htypes => htypes

theorem functionTy (func : NodeId) : (functionTy env func).Keeps T := by
  unfold LuaTypes.functionTy
  split
  · exact unknown
  · rename_i node hnode
    split
    · exact unknown
    · rename_i body hbody
      apply T.asking.bind (T.discipline.ofInfer (h.paramTys func body.params))
      intro params hparams
      apply T.asking.bind (P := fun vararg? => ∀ ty ∈ vararg?, T.Holds ty)
      · apply T.discipline.ofInfer
        split
        · apply T.infer.map (h.furtherTy func)
          rintro ty hty _ ⟨⟩
          exact hty
        · exact T.infer.pure nofun
      · intro vararg? hvararg
        apply T.asking.bind (h.resultTy hnode hbody)
        intro ret hret
        apply T.asking.pure
        rw [T.func]
        cases hdoc : env.program.functionDoc? func with
        | none => exact List.forall_mem_singleton.mpr ⟨hparams, hvararg, hret, nofun⟩
        | some doc =>
          have hkeeps := h.functionDoc hdoc
          have htypeParams : (!doc.typeParams.isEmpty) = true → T.tuples :=
            fun hne => hkeeps.typeParams (by simpa using hne)
          exact List.forall_mem_cons.mpr
            ⟨⟨hparams, hvararg, hret, htypeParams⟩, fun sig hsig => hkeeps.overload hsig⟩

end Env.Keeps

end LuaTypes
