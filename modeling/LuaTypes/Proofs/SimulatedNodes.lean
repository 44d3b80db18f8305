import LuaTypes.Proofs.CalledTypes
import LuaTypes.Proofs.SimulatedAnswers

/-!
Mirrored requests give nodes the same types.
-/

namespace LuaTypes.Simulation

variable {env : Env} {ix : Index} (S : Simulation env ix)

/-! Functions. -/

theorem valueTys_maps (values : List NodeId) :
    S.asking.Maps (List.map (Ty.rename S.ρ)) (values.mapM valueTy) (values.mapM valueTy) := by
  have hall := S.asking.mapM (φ := Ty.rename S.ρ) id values fun value _ => S.valueTy_maps value
  rwa [List.map_id] at hall

theorem returnedTy_maps (values : List NodeId) :
    S.asking.Maps (Ty.rename S.ρ) (returnedTy values) (returnedTy values) := by
  have htuple : S.asking.Maps (Ty.rename S.ρ) (do return Ty.tuple (← values.mapM valueTy))
      (do return Ty.tuple (← values.mapM valueTy)) := by
    refine S.asking.bind (S.valueTys_maps values) fun types => ?_
    rw [← Ty.rename_tuple]
    exact S.asking.pure (Ty.rename S.ρ) (.tuple types)
  rcases values with _ | ⟨value, _ | ⟨other, rest⟩⟩
  · exact htuple
  · exact S.ask_maps (.value value .all)
  · exact htuple

theorem bodyReturnTy_maps (block : NodeId) :
    S.asking.Maps (Ty.rename S.ρ) (bodyReturnTy env block)
      (bodyReturnTy (env.withIndex ix) block) := by
  dsimp only [bodyReturnTy]
  split
  · exact S.asking.pure (Ty.rename S.ρ) .void
  · have := S.unionOf_maps id (env.program.returnsOf block) fun values _ => S.returnedTy_maps values
    rwa [List.map_id] at this

theorem resultTy_maps {doc? : Option Doc} (hdoc : doc?.map (Doc.rename S.ρ) = doc?)
    (block : NodeId) :
    S.asking.Maps (Ty.rename S.ρ) (resultTy env doc? block)
      (resultTy (env.withIndex ix) doc? block) := by
  have hfixed : (doc?.elim [] (·.returns)).map (Ty.rename S.ρ) = doc?.elim [] (·.returns) := by
    conv => rhs; rw [← hdoc]
    cases doc? <;> rfl
  unfold resultTy
  generalize doc?.elim [] (·.returns) = returns at hfixed
  rcases returns with _ | ⟨a, _ | ⟨b, rest⟩⟩
  · exact S.bodyReturnTy_maps block
  · exact S.ofInfer_maps (S.expand_fixed_maps (List.head_eq_of_cons_eq hfixed))
  · have hall := S.infer.mapM (φ := Ty.rename S.ρ) (Ty.rename S.ρ) (a :: b :: rest) fun ty _ =>
      S.expand_maps ty
    rw [hfixed] at hall
    exact S.ofInfer_maps (S.infer.map hall fun types => Ty.rename_tuple S.ρ types)

theorem functionTy_maps (func : NodeId) :
    S.asking.Maps (Ty.rename S.ρ) (functionTy env func)
      (functionTy (env.withIndex ix) func) := by
  have hunknown := S.asking.pure (Ty.rename S.ρ) .unknown
  have hdoc := S.functionDoc?_rename func
  unfold functionTy
  cases env.program.node? func with
  | none => exact hunknown
  | some node =>
    simp only
    cases node.funcBody? with
    | none => exact hunknown
    | some body =>
      refine S.asking.bind (S.ofInfer_maps (S.paramTys_maps hdoc body.params)) fun params => ?_
      have hvararg : S.infer.Maps (Option.map (Ty.rename S.ρ))
          (if body.vararg then some <$> furtherTy env (env.program.functionDoc? func) else pure none)
          (if body.vararg then some <$> furtherTy (env.withIndex ix) (env.program.functionDoc? func)
            else pure none) := by
        split
        · exact S.infer.map (S.furtherTy_maps hdoc) fun _ => rfl
        · exact S.infer.pure (Option.map (Ty.rename S.ρ)) none
      refine S.asking.bind (S.ofInfer_maps hvararg) fun vararg? => ?_
      refine S.asking.bind (S.resultTy_maps hdoc body.block) fun ret => ?_
      have hoverloads : ((env.program.functionDoc? func).elim [] (·.overloads)).map
          (Signature.rename S.ρ) = (env.program.functionDoc? func).elim [] (·.overloads) := by
        conv => rhs; rw [← hdoc]
        cases env.program.functionDoc? func <;> rfl
      have := S.asking.pure (Ty.rename S.ρ) (.func
        ⟨node.isColonMethod, params, vararg?, ret,
          (env.program.functionDoc? func).elim [] (·.typeParams)⟩
        ((env.program.functionDoc? func).elim [] (·.overloads)))
      rw [Ty.rename_func, hoverloads, Signature.rename, Field.renameAll_eq_map,
        Ty.renameOption_eq_map] at this
      exact this

/-! Calls. -/

/-- Whatever is mirrored is related by the lifting. -/
def Extends (L : Lifting Asking Asking) : Prop :=
  ∀ {α β : Type} {φ : α → β} {x : Asking α} {y : Asking β}, S.asking.Maps φ x y → L.Maps φ x y

/-- Calls with related receivers and related arguments. -/
structure CallMaps (L : Lifting Asking Asking) (call call' : Call) : Prop where
  args : L.Maps (List.map (Ty.rename S.ρ)) call.argTypes call'.argTypes
  receiver : Option.Rel
    (fun r r' => L.Maps (Ty.rename S.ρ) (valueTy r.object) (valueTy r'.object))
    call.receiver? call'.receiver?

theorem receiverTypes_maps (call : Call) :
    S.asking.Maps (List.map (Ty.rename S.ρ)) call.receiverTypes call.receiverTypes := by
  have hnone := S.asking.pure (List.map (Ty.rename S.ρ)) []
  unfold Call.receiverTypes
  rcases call.receiver? with _ | ⟨object, colon⟩
  · exact hnone
  · cases colon with
    | true => exact S.asking.map (S.valueTy_maps object) fun _ => rfl
    | false => exact hnone

theorem argTypes_maps (call : Call) :
    S.asking.Maps (List.map (Ty.rename S.ρ)) call.argTypes call.argTypes := by
  refine S.asking.bind (S.receiverTypes_maps call) fun receiver => ?_
  refine S.asking.bind (S.valueTys_maps call.args) fun types => ?_
  rw [← List.map_append]
  exact S.asking.pure (List.map (Ty.rename S.ρ)) (receiver ++ types)

/-- A call mirrors itself. -/
theorem callMaps (call : Call) : S.CallMaps S.asking call call where
  args := S.argTypes_maps call
  receiver := by
    cases call.receiver? with
    | none => exact .none
    | some receiver => exact .some (S.valueTy_maps receiver.object)

section

variable {S} {L : Lifting Asking Asking} {call call' : Call}

/-- Computations that find out the types of the arguments at most once. -/
def withArgs (S : Simulation env ix) (L : Lifting Asking Asking) : Lifting WithArgs WithArgs :=
  L.state (Option.map (List.map (Ty.rename S.ρ)))

theorem withSelf_maps {compute compute' : Asking Ty} (h : L.Maps (Ty.rename S.ρ) compute compute')
    (ty : Ty) :
    L.Maps (Ty.rename S.ρ) (ty.withSelf compute) ((ty.rename S.ρ).withSelf compute') := by
  let L' := L.state (Option.map (Ty.rename S.ρ))
  have hreceiver : L'.Maps (Ty.rename S.ρ) (receiverTy compute) (receiverTy compute') := by
    refine L'.bind (L.get_maps _) fun ty? => ?_
    cases ty? with
    | some ty => exact L'.pure (Ty.rename S.ρ) ty
    | none =>
      refine L'.bind (L.lift_maps _ h) fun ty => ?_
      exact L'.bind (L.set_maps _ (some ty)) fun _ => L'.pure (Ty.rename S.ρ) ty
  refine L.run'_maps _ (L'.substitute S.ρ (by rfl) ty fun c _ => ?_) none
  simp only [selfRewriter, ClassTy.rename_name]
  split
  · exact L'.map hreceiver fun _ => rfl
  · exact L'.pure (Option.map (Ty.rename S.ρ)) none

variable (hL : S.Extends L)

namespace CallMaps

variable (h : S.CallMaps L call call')

include h

theorem argTypesOnce :
    (S.withArgs L).Maps (List.map (Ty.rename S.ρ)) call.argTypesOnce call'.argTypesOnce := by
  refine (S.withArgs L).bind (L.get_maps _) fun types? => ?_
  cases types? with
  | some types => exact (S.withArgs L).pure (List.map (Ty.rename S.ρ)) types
  | none =>
    refine (S.withArgs L).bind (L.lift_maps _ h.args) fun types => ?_
    refine (S.withArgs L).bind (L.set_maps _ (some types)) fun _ => ?_
    exact (S.withArgs L).pure (List.map (Ty.rename S.ρ)) types

include hL

theorem boundRet (sig : Signature) :
    (S.withArgs L).Maps (Ty.rename S.ρ) (call.boundRet sig)
      (call'.boundRet (sig.rename S.ρ)) := by
  unfold Call.boundRet
  rw [Signature.rename_isGeneric, Signature.rename_ret]
  split
  · refine (S.withArgs L).bind h.argTypesOnce fun types => ?_
    have hbind := S.ofInfer_maps (S.inferRead_maps (S.bindArgs?_maps sig types))
    refine (S.withArgs L).bind (L.lift_maps _ (hL hbind)) fun bindings? => ?_
    cases bindings? with
    | none => exact (S.withArgs L).pure (Ty.rename S.ρ) sig.ret
    | some b =>
      have := (S.withArgs L).pure (Ty.rename S.ρ) (b.apply sig.ret)
      rwa [← Bindings.apply_rename] at this
  · exact (S.withArgs L).pure (Ty.rename S.ρ) sig.ret

theorem returnTy (pick : Pick) (sig : Signature) :
    (S.withArgs L).Maps (Ty.rename S.ρ) (call.returnTy pick sig)
      (call'.returnTy pick (sig.rename S.ρ)) := by
  refine (S.withArgs L).bind (h.boundRet hL sig) fun ret => ?_
  have hreceiver := h.receiver
  generalize call.receiver? = receiver? at hreceiver
  generalize call'.receiver? = receiver'? at hreceiver
  cases hreceiver with
  | none =>
    have := (S.withArgs L).pure (Ty.rename S.ρ) (pick.of ret)
    rwa [← Pick.of_rename] at this
  | some hobject =>
    refine (S.withArgs L).bind (L.lift_maps _ (withSelf_maps hobject ret)) fun ret => ?_
    have := (S.withArgs L).pure (Ty.rename S.ρ) (pick.of ret)
    rwa [← Pick.of_rename] at this

omit hL h in
theorem matchingSignatures_rename (S : Simulation env ix) (main : Signature)
    (overloads : List Signature) (count : Nat) :
    matchingSignatures (main.rename S.ρ) (overloads.map (Signature.rename S.ρ)) count
      = (matchingSignatures main overloads count).map (Signature.rename S.ρ) := by
  have hcount : (fun sig : Signature => sig.params.length == count) ∘ Signature.rename S.ρ
      = fun sig => sig.params.length == count :=
    funext fun sig => by simp
  rw [matchingSignatures, matchingSignatures, ← List.map_cons, List.filter_map, hcount]
  cases (main :: overloads).filter (·.params.length == count) <;> rfl

theorem memberTyFor (count : Nat) (pick : Pick) (ret member : Ty) :
    (S.withArgs L).Maps (Ty.rename S.ρ) (call.memberTyFor env count pick ret member)
      (call'.memberTyFor (env.withIndex ix) count pick (ret.rename S.ρ) (member.rename S.ρ)) := by
  cases member with
  | func main overloads =>
    rw [Ty.rename_func]
    simp only [Call.memberTyFor, matchingSignatures_rename]
    refine (S.withArgs L).foldlM (φ := Ty.rename S.ρ) (Signature.rename S.ρ) _
      (fun ret sig _ => ?_) ret
    refine (S.withArgs L).bind (h.returnTy hL pick sig) fun found => ?_
    rw [Ty.join_rename]
    exact (S.withArgs L).pure (Ty.rename S.ρ) (ret.join found)
  | cls c =>
    have hjoin := Ty.join_rename S.ρ ret (.cls c)
    simp only [Ty.rename_cls] at hjoin
    simp only [Ty.rename_cls, Call.memberTyFor, Call.memberTy, ClassTy.rename_isGlobal,
      ClassTy.rename_name, S.findClass?, hjoin, ← apply_ite (Ty.rename S.ρ)]
    exact (S.withArgs L).pure (Ty.rename S.ρ) _
  | _ => simpa [Call.memberTyFor, Call.memberTy] using (S.withArgs L).pure (Ty.rename S.ρ) ret

theorem calleeRetFor (count : Nat) (pick : Pick) (calleeTy : Ty) :
    L.Maps (Ty.rename S.ρ) (calleeRetFor env call count pick calleeTy)
      (calleeRetFor (env.withIndex ix) call' count pick (calleeTy.rename S.ρ)) := by
  unfold LuaTypes.calleeRetFor
  split
  · exact L.pure (Ty.rename S.ρ) .unknown
  · have hfold := (S.withArgs L).foldlM (φ := Ty.rename S.ρ) (Ty.rename S.ρ) calleeTy.each
      (fun ret member _ => h.memberTyFor hL count pick ret member) .unknown
    rw [← Ty.each_rename] at hfold
    exact L.run'_maps _ hfold none

end CallMaps

include hL

/-- Calls of related callees with related receivers and arguments have related types, if the same
number of arguments is taken for granted. -/
theorem calledTy_maps {callee callee' : NodeId} {args args' : List NodeId}
    (hcallee : L.Maps (Ty.rename S.ρ) (valueTy callee) (valueTy callee'))
    (hcall : S.CallMaps L (callOf env callee args) (callOf env callee' args'))
    (hconstructed : Option.Rel
      (fun object object' => L.Maps (Ty.rename S.ρ) (valueTy object) (valueTy object'))
      (constructed? env callee) (constructed? env callee')) (count : Nat) (pick : Pick) :
    L.Maps (Ty.rename S.ρ) (calledTy env callee args count pick)
      (calledTy (env.withIndex ix) callee' args' count pick) := by
  refine L.bind hcallee fun calleeTy => ?_
  refine L.bind (hcall.calleeRetFor hL count pick calleeTy) fun ret => ?_
  rw [Ty.isInvalid_rename]
  split
  · exact L.pure (Ty.rename S.ρ) ret
  · have hobject : constructed? (env.withIndex ix) callee' = constructed? env callee' := rfl
    rw [hobject]
    generalize constructed? env callee = object? at hconstructed
    generalize constructed? env callee' = object'? at hconstructed
    cases hconstructed with
    | none => exact L.pure (Ty.rename S.ρ) ret
    | some hobject =>
      refine L.bind hobject fun ty => ?_
      rw [Ty.join_rename]
      exact L.pure (Ty.rename S.ρ) (ret.join ty)

end

theorem moduleTy_maps (file : FileId) :
    S.asking.Maps (Ty.rename S.ρ) (moduleTy env file) (moduleTy (env.withIndex ix) file) := by
  have hunknown := S.asking.pure (Ty.rename S.ρ) .unknown
  dsimp only [moduleTy]
  split
  · split
    · exact S.ask_maps (.exported file _)
    · exact hunknown
  · exact hunknown

theorem importTy_maps (args : List NodeId) :
    S.asking.Maps (Ty.rename S.ρ) (importTy env args) (importTy (env.withIndex ix) args) := by
  unfold importTy
  dsimp only
  split
  · exact S.moduleTy_maps _
  · exact S.asking.pure (Ty.rename S.ρ) .unknown

theorem callTy_maps (callee : NodeId) (args : List NodeId) (pick : Pick) :
    S.asking.Maps (Ty.rename S.ρ) (callTy env callee args pick)
      (callTy (env.withIndex ix) callee args pick) := by
  have hconstructed : Option.Rel
      (fun object object' => S.asking.Maps (Ty.rename S.ρ) (valueTy object) (valueTy object'))
      (constructed? env callee) (constructed? env callee) := by
    cases constructed? env callee with
    | none => exact .none
    | some object => exact .some (S.valueTy_maps object)
  rw [callTy_eq_calledTy, callTy_eq_calledTy]
  split
  · exact S.importTy_maps args
  · exact calledTy_maps id (S.valueTy_maps callee) (S.callMaps (callOf env callee args))
      hconstructed args.length pick

/-! Names. -/

theorem withLocalClass_rename (decl : NodeId) (name : String) (ty : Ty) :
    withLocalClass (env.withIndex ix) decl name (ty.rename S.ρ)
      = (withLocalClass env decl name ty).rename S.ρ := by
  simp only [withLocalClass, S.hasMembers]
  split
  · rw [← Ty.join_rename, Ty.rename_cls, ClassTy.rename_anonymous]
  · rfl

theorem returnedAt?_rename (position : Nat) (ty : Ty) :
    (ty.rename S.ρ).returnedAt? position = (ty.returnedAt? position).map (Ty.rename S.ρ) := by
  cases ty <;> simp [Ty.returnedAt?]

theorem loopVarTy_maps (exprs : List NodeId) (position : Nat) :
    S.asking.Maps (Ty.rename S.ρ) (loopVarTy exprs position) (loopVarTy exprs position) := by
  cases exprs with
  | nil => exact S.asking.pure (Ty.rename S.ρ) .unknown
  | cons first rest =>
    refine S.asking.bind (S.valueTy_maps first) fun iterator => ?_
    rw [Ty.filterMap_each_rename S.ρ (S.returnedAt?_rename position), Ty.unionAll_rename]
    exact S.asking.pure (Ty.rename S.ρ) _

theorem localTy_maps (stmt decl : NodeId) (name : String) (position : Nat)
    (values : List NodeId) :
    S.asking.Maps (Ty.rename S.ρ) (localTy env stmt decl name position values)
      (localTy (env.withIndex ix) stmt decl name position values) := by
  have hdeclared : S.infer.Maps (Option.map (Ty.rename S.ρ))
      (if position = 0 then declaredTy? env stmt else pure none)
      (if position = 0 then declaredTy? (env.withIndex ix) stmt else pure none) := by
    split
    · exact S.declaredTy?_maps stmt
    · exact S.infer.pure (Option.map (Ty.rename S.ρ)) none
  have hclass (ty : Ty) : S.asking.Maps (Ty.rename S.ρ)
      (return withLocalClass env decl name ty)
      (return withLocalClass (env.withIndex ix) decl name (ty.rename S.ρ)) := by
    rw [S.withLocalClass_rename]
    exact S.asking.pure (Ty.rename S.ρ) _
  refine S.asking.bind (S.ofInfer_maps hdeclared) fun declared? => ?_
  cases declared? with
  | some ty => exact hclass ty
  | none => exact S.asking.bind (S.listedTy_maps values position) hclass

theorem declarationTy_maps (decl : NodeId) (name : String) :
    S.asking.Maps (Ty.rename S.ρ) (declarationTy env decl name)
      (declarationTy (env.withIndex ix) decl name) := by
  have hunknown := S.asking.pure (Ty.rename S.ρ) .unknown
  have hdocumented (parent : NodeId) :=
    S.ofInfer_maps (S.paramTy_maps (S.functionDoc?_rename parent) name)
  dsimp only [declarationTy]
  cases env.program.parent? decl with
  | none => exact hunknown
  | some parent =>
    dsimp only
    cases env.program.node? parent with
    | none => exact hunknown
    | some node =>
      cases node with
      | localDef names values => exact S.localTy_maps parent decl name _ values
      | localFuncDef own body =>
        dsimp only
        split
        · exact S.valueTy_maps parent
        · exact hdocumented parent
      | forNum var start stop step? body =>
        dsimp only
        split
        · exact S.asking.pure (Ty.rename S.ρ) .number
        · exact hunknown
      | forIn vars exprs body => exact S.loopVarTy_maps exprs _
      | funcDef _ _ | methodDef _ _ _ _ | closure _ => exact hdocumented parent
      | _ => exact hunknown

theorem nameTy_maps (id : NodeId) (name : String) :
    S.asking.Maps (Ty.rename S.ρ) (nameTy env id name) (nameTy (env.withIndex ix) id name) := by
  unfold nameTy
  dsimp only
  split
  · exact S.valueTy_maps _
  · split
    · exact S.valueTy_maps _
    · exact S.globalTy_maps name

/-! Indices. -/

theorem element?_rename (key : IndexKey) (ty : Ty) :
    key.element? (ty.rename S.ρ) = (key.element? ty).map (Ty.rename S.ρ) := by
  cases ty <;> simp [IndexKey.element?, apply_ite]

theorem stringKeyed?_rename (ty : Ty) :
    (ty.rename S.ρ).stringKeyed? = ty.stringKeyed?.map (Ty.rename S.ρ) := by
  cases ty with
  | generic base args =>
    rcases args with _ | ⟨k, _ | ⟨v, _ | ⟨other, rest⟩⟩⟩
    · simp [Ty.stringKeyed?]
    · simp [Ty.stringKeyed?]
    · have hkey : (k.rename S.ρ == Ty.string) = (k == Ty.string) := Ty.beq_rename S.ρ k .string
      simp [Ty.stringKeyed?, hkey, apply_ite]
    · simp [Ty.stringKeyed?]
  | _ => simp [Ty.stringKeyed?]

theorem elementTy_rename (object : Ty) (key : IndexKey) :
    elementTy (object.rename S.ρ) key = (elementTy object key).rename S.ρ := by
  have helements := Ty.foldl_join_rename S.ρ (object.each.filterMap key.element?) .unknown
  rw [Ty.rename_unknown] at helements
  simp only [elementTy, Ty.filterMap_each_rename S.ρ (S.element?_rename key),
    Ty.filterMap_each_rename S.ρ S.stringKeyed?_rename, helements, Ty.foldl_join_rename,
    Ty.isInvalid_rename, apply_ite (Ty.rename S.ρ)]

theorem readTy_maps (id object : NodeId) (key : IndexKey) :
    S.asking.Maps (Ty.rename S.ρ) (readTy env id object key)
      (readTy (env.withIndex ix) id object key) := by
  refine S.asking.bind (S.valueTy_maps object) fun objectTy => ?_
  simp only [S.elementTy_rename, Ty.isInvalid_rename]
  split
  · exact S.asking.pure (Ty.rename S.ρ) _
  · have hname : memberName? (env.withIndex ix) key = memberName? env key := rfl
    rw [hname]
    cases memberName? env key with
    | none => exact S.asking.pure (Ty.rename S.ρ) _
    | some name => exact S.lookupTy_maps objectTy name (useOf env id)

theorem indexTy_maps (id object : NodeId) (key : IndexKey) :
    S.asking.Maps (Ty.rename S.ρ) (indexTy env id object key)
      (indexTy (env.withIndex ix) id object key) := by
  unfold indexTy
  dsimp only
  cases env.program.assignTarget? id with
  | none => exact S.readTy_maps id object key
  | some place =>
    obtain ⟨stmt, position⟩ := place
    refine S.asking.bind (S.ofInfer_maps (S.declaredTy?_maps stmt)) fun declared? => ?_
    simp only [Ty.getD_rename, Ty.isInvalid_rename]
    split
    · exact S.asking.pure (Ty.rename S.ρ) _
    · refine S.asking.bind (S.readTy_maps id object key) fun ty => ?_
      rw [Ty.isInvalid_rename]
      split
      · exact S.asking.pure (Ty.rename S.ρ) ty
      · split
        · exact S.ask_maps (.listed _ _ position)
        · exact S.asking.pure (Ty.rename S.ρ) ty

/-! Nodes. -/

theorem binaryTy_maps (id : NodeId) (op : BinaryOp) (lhs rhs : NodeId) :
    S.asking.Maps (Ty.rename S.ρ) (binaryTy env id op lhs rhs)
      (binaryTy (env.withIndex ix) id op lhs rhs) := by
  have hreads : readsOwnTarget (env.withIndex ix) id = readsOwnTarget env id := rfl
  cases op with
  | and =>
    simp only [binaryTy, hreads]
    split
    · exact S.asking.pure (Ty.rename S.ρ) .unknown
    · exact S.valueTy_maps rhs
  | or =>
    simp only [binaryTy, hreads]
    split
    · exact S.valueTy_maps rhs
    · refine S.asking.bind (S.valueTy_maps lhs) fun left => ?_
      refine S.asking.bind (S.valueTy_maps rhs) fun right => ?_
      rw [Ty.join_rename]
      exact S.asking.pure (Ty.rename S.ρ) (left.join right)
  | concat => exact S.asking.pure (Ty.rename S.ρ) .string
  | _ => exact S.asking.pure (Ty.rename S.ρ) (if BinaryOp.isComparison _ then .boolean else .number)

theorem tableFieldTy_maps (id value : NodeId) :
    S.asking.Maps (Ty.rename S.ρ) (tableFieldTy env id value)
      (tableFieldTy (env.withIndex ix) id value) := by
  have hdoc := S.doc? id
  unfold tableFieldTy
  cases h : env.program.doc? id >>= (·.type?) with
  | none => exact S.valueTy_maps value
  | some ty =>
    exact S.ofInfer_maps (S.expand_fixed_maps (S.documented_fixed hdoc (fun _ => rfl) h))

theorem nodeTy_maps (id : NodeId) (pick : Pick) :
    S.asking.Maps (Ty.rename S.ρ) (nodeTy env id pick) (nodeTy (env.withIndex ix) id pick) := by
  have hunknown := S.asking.pure (Ty.rename S.ρ) .unknown
  unfold nodeTy
  dsimp only
  cases env.program.node? id with
  | none => exact hunknown
  | some node =>
    cases node with
    | nameDef name => exact S.declarationTy_maps id name
    | nameRef name => exact S.nameTy_maps id name
    | index object key => exact S.indexTy_maps id object key
    | call callee args => exact S.callTy_maps callee args pick
    | unary op operand =>
      dsimp only
      split
      · exact S.asking.pure (Ty.rename S.ρ) .boolean
      · exact S.asking.pure (Ty.rename S.ρ) .number
    | binary op lhs rhs => exact S.binaryTy_maps id op lhs rhs
    | literal value => exact S.ofInfer_maps (S.literalTy_maps id value)
    | table fields => exact S.ofInfer_maps (S.tableTy_maps id fields)
    | tableField key value => exact S.tableFieldTy_maps id value
    | paren expr => exact S.valueTy_maps expr
    | closure _ | funcDef _ _ | localFuncDef _ _ | methodDef _ _ _ _ => exact S.functionTy_maps id
    | _ => exact hunknown

/-- Mirrored requests do the same to answer a question. -/
theorem answer_maps (q : Query) :
    S.asking.Maps (Ty.rename S.ρ) (q.answer env) ((q.rename S.ρ).answer (env.withIndex ix)) := by
  cases q with
  | value node pick => exact S.nodeTy_maps node pick
  | field cls name use => exact S.fieldTy_maps cls name use
  | globalDecls name => exact S.globalDeclsTy_maps name
  | listed text values index => exact S.listedTy_maps values index
  | exported file value => exact S.valueTy_maps value

end LuaTypes.Simulation
