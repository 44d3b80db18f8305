import LuaTypes.Proofs.InvariantAnswers

/-!
The types of nodes have the property of an invariant that the comments keep, whatever values of a
call are picked.
-/

namespace LuaTypes

namespace TyInvariant

variable {T : TyInvariant}

theorem Returns.picked {ty : Ty} (h : T.Returns ty) (pick : Pick) : T.Picked pick (pick.of ty) := by
  cases pick with
  | nth index => exact h.valueAt index
  | all => exact h.holds

theorem Picked.holds {pick : Pick} {ty : Ty} (h : T.Picked pick ty) (htuples : T.tuples) :
    T.Holds ty := by
  cases pick with
  | nth index => exact h
  | all => exact h htuples

theorem Picked.join {pick : Pick} {a b : Ty} (ha : T.Picked pick a) (hb : T.Picked pick b) :
    T.Picked pick (a.join b) := by
  cases pick with
  | nth index => exact Holds.join ha hb
  | all => exact fun htuples => (ha htuples).join (hb htuples)

end TyInvariant

namespace Env.Keeps

variable {T : TyInvariant} {env : Env}

/-! Calls. -/

theorem receiverTypes (call : Call) :
    T.asking.Ensures (fun types => ∀ ty ∈ types, T.Holds ty) call.receiverTypes := by
  unfold Call.receiverTypes
  split
  · apply T.asking.map (valueTy _)
    exact fun ty hty => List.forall_mem_singleton.mpr hty
  · exact T.asking.pure nofun

theorem argTypes (call : Call) :
    T.asking.Ensures (fun types => ∀ ty ∈ types, T.Holds ty) call.argTypes := by
  apply T.asking.bind (receiverTypes call)
  intro receiver hreceiver
  apply T.asking.bind (T.asking.mapM call.args fun arg _ => valueTy arg)
  intro args hargs
  exact T.asking.pure (List.forall_mem_append.mpr ⟨hreceiver, hargs⟩)

/-- Computations that find out the types of the arguments at most once. -/
def withArgs (T : TyInvariant) : Keeping WithArgs :=
  T.asking.state fun types? => ∀ types ∈ types?, ∀ ty ∈ types, T.Holds ty

theorem argTypesOnce (call : Call) :
    (withArgs T).Ensures (fun types => ∀ ty ∈ types, T.Holds ty) call.argTypesOnce := by
  apply (withArgs T).bind (T.asking.get_ensures _)
  intro types? htypes
  cases types? with
  | some types => exact (withArgs T).pure (htypes types rfl)
  | none =>
    apply (withArgs T).bind (T.asking.lift_ensures _ (argTypes call))
    intro types htypes
    have hset : ∀ found ∈ some types, ∀ ty ∈ found, T.Holds ty := by
      rintro _ ⟨⟩
      exact htypes
    apply (withArgs T).bind (T.asking.set_ensures _ hset)
    exact fun _ _ => (withArgs T).pure htypes

theorem boundRet (call : Call) {sig : Signature} (h : T.Sig sig) :
    (withArgs T).Ensures T.Returns (call.boundRet sig) := by
  unfold Call.boundRet
  split
  · rename_i hgeneric
    apply (withArgs T).bind (argTypesOnce call)
    intro types htypes
    have hbind := T.discipline.ofInfer
      (Reading.keeping.read (sig.bindArgs?_all (h.typeParams hgeneric) htypes))
    apply (withArgs T).bind (T.asking.lift_ensures _ hbind)
    intro bindings? hbindings
    apply (withArgs T).pure
    cases bindings? with
    | none => exact h.ret
    | some b => exact (Bindings.apply_keeps (hbindings b rfl) sig.ret).2 h.ret
  · exact (withArgs T).pure h.ret

theorem returnTy (call : Call) (pick : Pick) {sig : Signature} (h : T.Sig sig) :
    (withArgs T).Ensures (T.Picked pick) (call.returnTy pick sig) := by
  apply (withArgs T).bind (boundRet call h)
  intro ret hret
  split
  · rename_i object _ _
    have hself := T.asking.withSelf_returns (valueTy object) hret
    apply (withArgs T).bind (T.asking.lift_ensures _ hself)
    intro ret hret
    exact (withArgs T).pure (hret.picked pick)
  · exact (withArgs T).pure (hret.picked pick)

theorem mem_matchingSignatures {main sig : Signature} {overloads : List Signature} {count : Nat}
    (h : sig ∈ matchingSignatures main overloads count) : sig ∈ main :: overloads := by
  unfold matchingSignatures at h
  split at h
  · obtain rfl := List.mem_singleton.mp h
    exact List.mem_cons_self
  · exact (List.mem_filter.mp h).1

theorem calleeMemberTy (call : Call) (pick : Pick) {ret member : Ty} (hret : T.Picked pick ret)
    (hmember : T.Holds member) :
    (withArgs T).Ensures (T.Picked pick) (call.memberTy env pick ret member) := by
  unfold Call.memberTy
  split
  · apply (withArgs T).foldlM _ _ hret
    intro ret hret sig hsig
    apply (withArgs T).bind
      (returnTy call pick (T.func.mp hmember sig (mem_matchingSignatures hsig)))
    intro found hfound
    exact (withArgs T).pure (hret.join hfound)
  · apply (withArgs T).pure
    split
    · exact hret.join (hmember.picked pick)
    · exact hret
  · exact (withArgs T).pure hret

theorem calleeRet (call : Call) (pick : Pick) {calleeTy : Ty} (h : T.Holds calleeTy) :
    T.asking.Ensures (T.Picked pick) (calleeRet env call pick calleeTy) := by
  have hunknown : T.Picked pick .unknown := T.unknown.picked pick
  unfold LuaTypes.calleeRet
  split
  · exact T.asking.pure hunknown
  · have hfold : (withArgs T).Ensures (T.Picked pick)
        (calleeTy.each.foldlM (call.memberTy env pick) .unknown) := by
      apply (withArgs T).foldlM _ _ hunknown
      exact fun ret hret member hm => calleeMemberTy call pick hret (h.each member hm)
    exact T.asking.run'_ensures _ hfold nofun

theorem moduleTy (file : FileId) : (moduleTy env file).Keeps T := by
  dsimp only [LuaTypes.moduleTy]
  split
  · split
    · exact T.discipline.ask (q := .exported file _) trivial
    · exact unknown
  · exact unknown

theorem importTy (args : List NodeId) : (importTy env args).Keeps T := by
  unfold LuaTypes.importTy
  split
  · exact moduleTy _
  · exact unknown

theorem callTy (callee : NodeId) (args : List NodeId) (pick : Pick) :
    T.asking.Ensures (T.Picked pick) (callTy env callee args pick) := by
  unfold LuaTypes.callTy
  split
  · exact T.asking.imp (importTy args) fun _ hty => hty.picked pick
  · apply T.asking.bind (valueTy callee)
    intro calleeTy hcallee
    apply T.asking.bind (calleeRet (callOf env callee args) pick hcallee)
    intro ret hret
    split
    · exact T.asking.pure hret
    · split
      · apply T.asking.bind (valueTy _)
        intro ty hty
        exact T.asking.pure (hret.join (hty.picked pick))
      · exact T.asking.pure hret

/-! Names. -/

theorem withLocalClass (decl : NodeId) (name : String) {ty : Ty} (h : T.Holds ty) :
    T.Holds (withLocalClass env decl name ty) := by
  dsimp only [LuaTypes.withLocalClass]
  split
  · exact h.join (.cls_of_docFields rfl)
  · exact h

theorem loopVarTy (exprs : List NodeId) (position : Nat) : (loopVarTy exprs position).Keeps T := by
  unfold LuaTypes.loopVarTy
  split
  · exact unknown
  · apply T.asking.bind (valueTy _)
    intro iterator hiterator
    apply T.asking.pure
    apply T.unionAll
    intro ty hty
    obtain ⟨member, hm, hret⟩ := List.mem_filterMap.mp hty
    cases member with
    | func main overloads =>
      obtain rfl := Option.some_inj.mp hret
      have hmain : T.Sig main := T.func.mp (hiterator.each _ hm) main List.mem_cons_self
      have hret : T.Returns main.ret := hmain.ret
      exact hret.valueAt position
    | _ => cases hret

variable (h : env.Keeps T)

include h

theorem localTy (stmt decl : NodeId) (name : String) (position : Nat) (values : List NodeId) :
    (localTy env stmt decl name position values).Keeps T := by
  apply T.asking.bind (P := fun ty? => ∀ ty ∈ ty?, T.Holds ty)
  · apply T.discipline.ofInfer
    split
    · exact h.declaredTy? stmt
    · exact T.infer.pure nofun
  · intro declared? hdeclared
    cases declared? with
    | some ty => exact T.asking.pure (withLocalClass decl name (hdeclared ty rfl))
    | none =>
      apply T.asking.bind (listedTy values position)
      intro ty hty
      exact T.asking.pure (withLocalClass decl name hty)

theorem declarationTy (decl : NodeId) (name : String) : (declarationTy env decl name).Keeps T := by
  dsimp only [LuaTypes.declarationTy]
  split
  · exact unknown
  · rename_i parent _
    have hdocumented := T.discipline.ofInfer (h.paramTy parent name)
    split
    · exact h.localTy parent decl name _ _
    · split
      · exact valueTy parent
      · exact hdocumented
    · apply T.asking.pure
      split
      · exact T.prim .number
      · exact T.unknown
    · exact loopVarTy _ _
    · exact hdocumented
    · exact hdocumented
    · exact hdocumented
    · exact unknown

omit h in
theorem nameTy (id : NodeId) (name : String) : (nameTy env id name).Keeps T := by
  unfold LuaTypes.nameTy
  split
  · exact valueTy _
  · split
    · exact valueTy _
    · exact globalTy name

/-! Indices. -/

omit h in
theorem elementTy {object : Ty} (hobject : T.Holds object) (key : IndexKey) :
    T.Holds (elementTy object key) := by
  have helements : T.Holds ((object.each.filterMap key.element?).foldl Ty.join .unknown) := by
    apply TyInvariant.Holds.foldl_join _ T.unknown
    intro ty hty
    obtain ⟨member, hm, helement⟩ := List.mem_filterMap.mp hty
    have hmember := hobject.each member hm
    cases member with
    | array element =>
      simp only [IndexKey.element?] at helement
      split at helement
      · obtain rfl := Option.some_inj.mp helement
        exact T.array.mp hmember
      · cases helement
    | _ => cases helement
  dsimp only [LuaTypes.elementTy]
  split
  · exact helements
  · apply TyInvariant.Holds.foldl_join _ helements
    intro ty hty
    obtain ⟨member, hm, hvalue⟩ := List.mem_filterMap.mp hty
    have hmember := hobject.each member hm
    unfold Ty.stringKeyed? at hvalue
    split at hvalue
    · split at hvalue
      · obtain rfl := Option.some_inj.mp hvalue
        exact (T.generic.mp hmember).2 _ (by simp)
      · cases hvalue
    · cases hvalue

omit h in
theorem readTy (id object : NodeId) (key : IndexKey) : (readTy env id object key).Keeps T := by
  apply T.asking.bind (valueTy object)
  intro objectTy hobject
  dsimp only
  split
  · exact T.asking.pure (elementTy hobject key)
  · split
    · exact lookupTy hobject _ _
    · exact T.asking.pure (elementTy hobject key)

theorem indexTy (id object : NodeId) (key : IndexKey) : (indexTy env id object key).Keeps T := by
  unfold LuaTypes.indexTy
  split
  · exact readTy id object key
  · apply T.asking.bind (T.discipline.ofInfer (h.declaredTy? _))
    intro declared? hdeclared
    have hty : T.Holds (declared?.getD .unknown) := by
      cases declared? with
      | none => exact T.unknown
      | some ty => exact hdeclared ty rfl
    dsimp only
    split
    · exact T.asking.pure hty
    · apply T.asking.bind (readTy id object key)
      intro ty hty
      split
      · exact T.asking.pure hty
      · split
        · exact T.discipline.ask (q := .listed _ _ _) trivial
        · exact T.asking.pure hty

/-! Nodes. -/

omit h in
theorem binaryTy (id : NodeId) (op : BinaryOp) (lhs rhs : NodeId) :
    (binaryTy env id op lhs rhs).Keeps T := by
  unfold LuaTypes.binaryTy
  split
  · split
    · exact unknown
    · exact valueTy rhs
  · split
    · exact valueTy rhs
    · apply T.asking.bind (valueTy lhs)
      intro left hleft
      apply T.asking.bind (valueTy rhs)
      intro right hright
      exact T.asking.pure (hleft.join hright)
  · exact T.asking.pure (T.prim .string)
  · apply T.asking.pure
    split
    · exact T.prim .boolean
    · exact T.prim .number

theorem literalTy (id : NodeId) (value : Literal) :
    T.infer.Ensures T.Holds (literalTy env id value) := by
  cases value with
  | nil => exact T.infer.pure (T.prim .nil)
  | bool b => exact T.infer.pure (T.prim .boolean)
  | number text => exact T.infer.pure (T.prim .number)
  | string value => exact T.infer.pure (T.prim .string)
  | vararg =>
    apply T.infer.bind (h.varargTy? id)
    intro ty? hty
    apply T.infer.pure
    cases ty? with
    | none => exact T.unknown
    | some ty => exact hty ty rfl

theorem tableTy (id : NodeId) (fields : List NodeId) :
    T.infer.Ensures T.Holds (tableTy env id fields) := by
  apply T.infer.bind (P := fun ty? => ∀ ty ∈ ty?, T.Holds ty)
  · split
    · exact h.varargTy? id
    · exact T.infer.pure nofun
  · intro element? helement
    cases element? with
    | some element => exact T.infer.pure (T.array.mpr (helement element rfl))
    | none =>
      apply T.infer.pure
      unfold literalClassTy
      split
      · exact .cls_of_docFields rfl
      · exact T.unknown

theorem tableFieldTy (id value : NodeId) : (tableFieldTy env id value).Keeps T := by
  unfold LuaTypes.tableFieldTy
  split
  · rename_i ty hty
    obtain ⟨doc, hdoc, hty⟩ := Option.bind_eq_some_iff.mp hty
    exact T.discipline.ofInfer (h.expand ((h.doc hdoc).type hty))
  · exact valueTy value

theorem nodeTy (id : NodeId) (pick : Pick) :
    T.asking.Ensures (T.Answers (.value id pick)) (nodeTy env id pick) := by
  have hanswers {x : Asking Ty} (hx : x.Keeps T) :
      T.asking.Ensures (T.Answers (.value id pick)) x :=
    T.asking.imp hx fun _ hty => T.answers_of_holds hty _
  unfold LuaTypes.nodeTy
  cases hnode : env.program.node? id with
  | none => exact hanswers unknown
  | some node =>
    cases node with
    | nameDef name => exact hanswers (h.declarationTy id name)
    | nameRef name => exact hanswers (nameTy id name)
    | index object key => exact hanswers (h.indexTy id object key)
    | call callee args =>
      have hcall := h.calls id callee args hnode
      exact T.asking.imp (callTy callee args pick) fun _ hty => ⟨hty, fun halone => absurd halone hcall⟩
    | unary op operand =>
      apply hanswers
      apply T.asking.pure
      split
      · exact T.prim .boolean
      · exact T.prim .number
    | binary op lhs rhs => exact hanswers (binaryTy id op lhs rhs)
    | literal value => exact hanswers (T.discipline.ofInfer (h.literalTy id value))
    | table fields => exact hanswers (T.discipline.ofInfer (h.tableTy id fields))
    | tableField key value => exact hanswers (h.tableFieldTy id value)
    | paren expr => exact hanswers (valueTy expr)
    | closure _ | funcDef _ _ | localFuncDef _ _ | methodDef _ _ _ _ =>
      exact hanswers (h.functionTy id)
    | _ => exact hanswers unknown

theorem answer {q : Query} (hq : T.Asks q) : T.asking.Ensures (T.Answers q) (q.answer env) := by
  cases q with
  | value node pick => exact h.nodeTy node pick
  | field cls name use => exact h.fieldTy hq name use
  | globalDecls name => exact h.globalDeclsTy name
  | listed text values index => exact listedTy values index
  | exported file value => exact valueTy value

end Env.Keeps

end LuaTypes
