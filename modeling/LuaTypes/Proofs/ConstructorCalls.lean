import LuaTypes.Proofs.Folds
import LuaTypes.Proofs.Nested
import LuaTypes.Proofs.TypeArguments
import LuaTypes.Proofs.WellFormedPrograms

/-!
Calls of constructors. The type of a call is the join of what the members of the callee's type
offer. The object that a constructor is called on adds to it only if all of these are sentinels;
then the call has the type of the object, and else nothing of that type but what is offered as well.
-/

namespace LuaTypes

/-! What a callee offers. -/

namespace Call

variable (env : Env) (call : Call) (pick : Pick)

/-- What one member of the callee's type offers: what the signatures that answer the call return, or
the class that is called, unless it is the synthetic class of a global. -/
def offers : Ty → WithArgs (List Ty)
  | .func main overloads =>
    (matchingSignatures main overloads call.args.length).mapM (call.returnTy pick)
  | .cls c => return if !c.isGlobal || (env.index.findClass? c.name).isSome then [.cls c] else []
  | _ => return []

/-- What the members of the callee's type offer. -/
def offersOf (calleeTy : Ty) : Asking (List Ty) :=
  (List.flatten <$> calleeTy.each.mapM (call.offers env pick)).run' none

theorem memberTy_eq (ret member : Ty) : call.memberTy env pick ret member = (do
    return (← call.offers env pick member).foldl Ty.join ret) := by
  cases member with
  | func main overloads => exact foldlM_eq_mapM _ Ty.join _ ret
  | cls c =>
    rw [memberTy, offers, pure_bind]
    split <;> rfl
  | _ => rfl

end Call

variable {env : Env}

theorem calleeRet_eq (hcancelled : env.cancelled = false) (call : Call) (pick : Pick)
    (calleeTy : Ty) : calleeRet env call pick calleeTy = (do
      return (← call.offersOf env pick calleeTy).foldl Ty.join .unknown) := by
  rw [calleeRet, hcancelled, if_neg Bool.false_ne_true]
  simp only [funext fun ret => funext (call.memberTy_eq env pick ret), foldlM_foldl_eq_mapM]
  simp [Call.offersOf, StateT.run'_eq]

/-! Constructors. -/

/-- What the callee of a call offers. -/
def calleeOffers (env : Env) (callee : NodeId) (args : List NodeId) (pick : Pick) :
    Asking (List Ty) := do
  (callOf env callee args).offersOf env pick (← valueTy callee)

/-- What is inferred for the parts of a constructor call: what the callee offers, and then the type
of the object. -/
def constructorParts (env : Env) (callee : NodeId) (args : List NodeId) (object : NodeId)
    (pick : Pick) : Asking (List Ty × Ty) := do
  let offers ← calleeOffers env callee args pick
  return (offers, ← valueTy object)

/-- The type of a constructor call for what the callee offers and the type of the object. -/
def constructorTy (offers : List Ty) (objectTy : Ty) : Ty :=
  let ret := offers.foldl Ty.join .unknown
  if ret.isInvalid then ret.join objectTy else ret

theorem usedName?_of_constructed? {callee object : NodeId}
    (h : constructed? env callee = some object) : env.program.usedName? callee = none := by
  unfold constructed? at h
  split at h
  · rename_i hnode
    simp [Program.usedName?, hnode, Node.usedName?]
  · rename_i hnode
    simp [Program.usedName?, hnode, Node.usedName?]
  · cases h

/-- The object is asked about only if its type matters. -/
theorem callTy_eq (hcancelled : env.cancelled = false) {callee object : NodeId}
    (hobject : constructed? env callee = some object) (args : List NodeId) (pick : Pick) :
    callTy env callee args pick = (do
      let offers ← calleeOffers env callee args pick
      if (offers.foldl Ty.join .unknown).isInvalid then
        return constructorTy offers (← valueTy object)
      else return constructorTy offers .unknown) := by
  rw [callTy, usedName?_of_constructed? hobject]
  simp only [Option.any_none, Bool.false_eq_true, if_false, calleeRet_eq hcancelled, hobject,
    calleeOffers, bind_assoc, pure_bind]
  refine bind_congr fun calleeTy => bind_congr fun offers => ?_
  cases hinvalid : (offers.foldl Ty.join .unknown).isInvalid <;> simp [constructorTy, hinvalid]

section

variable {memo : ClassMemo} {keys : List Key}

theorem during_callTy (hcancelled : env.cancelled = false) {callee object : NodeId}
    (hobject : constructed? env callee = some object) (args : List NodeId) (pick : Pick) :
    let parts := (constructorParts env callee args object pick).during env memo keys
    (callTy env callee args pick).during env memo keys = constructorTy parts.1 parts.2 := by
  rw [callTy_eq hcancelled hobject]
  refine Asking.during_bind_rel (R := fun ty (parts : List Ty × Ty) =>
    ty = constructorTy parts.1 parts.2) _ fun s => ?_
  generalize (calleeOffers env callee args pick).during env memo keys = offers
  -- The type of the object is what it would be at this point, whether it is asked about or not.
  let objectTy := ((valueTy object s).finish (answerWithin env (maxInferDepth - keys.length))).1
  have hparts : (Run.finish (answerWithin env (maxInferDepth - keys.length))
      ((do return (offers, ← valueTy object) : Asking (List Ty × Ty)) s)).1
        = (offers, objectTy) := by
    change (Run.finish _ (Run.bind _ _)).1 = _
    rw [Run.finish_bind]
    rfl
  refine Eq.trans ?_ (congrArg (fun parts => constructorTy parts.1 parts.2) hparts.symm)
  cases hinvalid : (offers.foldl Ty.join .unknown).isInvalid with
  | true =>
    change (Run.finish _ (Run.bind _ _)).1 = _
    rw [Run.finish_bind]
    rfl
  | false =>
    change constructorTy offers .unknown = constructorTy offers _
    simp [constructorTy, hinvalid]

end

/-! Members of the type. -/

namespace Ty.WellFormed

variable {offers : List Ty} (h : ∀ offer ∈ offers, offer.WellFormed)

include h

/-- What is offered is a sentinel if everything offered is one. -/
theorem isInvalid_foldl_join : (offers.foldl Ty.join .unknown).isInvalid = true ↔
    ∀ offer ∈ offers, offer.isInvalid = true := by
  have hshows {m : Ty} (hm : m.WellFormed) :
      (offers.foldl Ty.join .unknown).Shows m ↔ ∃ offer ∈ offers, offer.Shows m := by
    rw [shows_foldl_join h .unknown hm]
    exact or_iff_right fun hunknown => Bool.false_ne_true hunknown.1.symm
  have hret := foldl_join h (.unknown : Ty.unknown.WellFormed)
  constructor
  · intro hinvalid offer hoffer
    refine Bool.eq_true_of_not_eq_false fun hvalid => ?_
    obtain ⟨m, hm⟩ := List.exists_mem_of_ne_nil _ (h offer hoffer).each_ne_nil
    have hmem := (h offer hoffer).each m hm
    have hret := ((hshows hmem).mpr ⟨offer, hoffer, shows_of_mem hvalid hm⟩).1
    exact Bool.false_ne_true (hret.symm.trans hinvalid)
  · intro hall
    refine Bool.eq_true_of_not_eq_false fun hvalid => ?_
    obtain ⟨m, hm⟩ := List.exists_mem_of_ne_nil _ hret.each_ne_nil
    obtain ⟨offer, hoffer, hoffered, -⟩ := (hshows (hret.each m hm)).mp (shows_of_mem hvalid hm)
    exact Bool.false_ne_true (hoffered.symm.trans (hall offer hoffer))

theorem shows_constructorTy {objectTy : Ty} (hobject : objectTy.WellFormed) {m : Ty}
    (hm : m.WellFormed) : (constructorTy offers objectTy).Shows m ↔
      (∃ offer ∈ offers, offer.Shows m) ∨
        (∀ offer ∈ offers, offer.isInvalid = true) ∧ objectTy.Shows m := by
  have hret := foldl_join h (.unknown : Ty.unknown.WellFormed)
  have hunknown : ¬Ty.unknown.Shows m := fun hunknown => Bool.false_ne_true hunknown.1.symm
  rw [constructorTy, ← isInvalid_foldl_join h]
  cases hinvalid : (offers.foldl Ty.join .unknown).isInvalid with
  | true => simp [shows_join hret hobject hm, shows_foldl_join h .unknown hm, hunknown]
  | false => simp [shows_foldl_join h .unknown hm, hunknown]

/-- The type of the object is in the type of the call if it matters, or is offered anyway. -/
theorem among_constructorTy_iff {objectTy : Ty} (hobject : objectTy.WellFormed) :
    (∀ m ∈ objectTy.each, m.isInvalid = false → m.Among (constructorTy offers objectTy).each) ↔
      (∀ offer ∈ offers, offer.isInvalid = true) ∨
        ∀ m ∈ objectTy.each, m.isInvalid = false → ∃ offer ∈ offers, offer.Shows m := by
  constructor
  · intro hall
    by_cases hsentinels : ∀ offer ∈ offers, offer.isInvalid = true
    · exact .inl hsentinels
    · refine .inr fun m hm hvalid => ?_
      have hmember := (shows_iff_among hvalid).mpr (hall m hm hvalid)
      refine ((shows_constructorTy h hobject (hobject.each m hm)).mp hmember).resolve_right ?_
      exact fun hsecond => hsentinels hsecond.1
  · intro hcase m hm hvalid
    rw [← shows_iff_among hvalid, shows_constructorTy h hobject (hobject.each m hm)]
    rcases hcase with hsentinels | hoffered
    · exact .inr ⟨hsentinels, (shows_iff_among hvalid).mpr (among_of_mem hm)⟩
    · exact .inl (hoffered m hm hvalid)

end Ty.WellFormed

/-! What is offered has the property of every invariant that the comments keep. -/

namespace Env.Keeps

variable {T : TyInvariant}

theorem offers (call : Call) (pick : Pick) {member : Ty} (h : T.Holds member) :
    (withArgs T).Ensures (fun offers => ∀ offer ∈ offers, T.Picked pick offer)
      (call.offers env pick member) := by
  unfold Call.offers
  split
  · exact (withArgs T).mapM _ fun sig hsig =>
      returnTy call pick (T.func.mp h sig (mem_matchingSignatures hsig))
  · apply (withArgs T).pure
    split
    · exact List.forall_mem_singleton.mpr (h.picked pick)
    · exact List.forall_mem_nil _
  · exact (withArgs T).pure (List.forall_mem_nil _)

theorem calleeOffers (callee : NodeId) (args : List NodeId) (pick : Pick) :
    T.asking.Ensures (fun offers => ∀ offer ∈ offers, T.Picked pick offer)
      (calleeOffers env callee args pick) := by
  apply T.asking.bind (valueTy callee)
  intro calleeTy hcallee
  have hall : (withArgs T).Ensures
      (fun lists => ∀ offers ∈ lists, ∀ offer ∈ offers, T.Picked pick offer)
      (calleeTy.each.mapM ((callOf env callee args).offers env pick)) :=
    (withArgs T).mapM _ fun member hm => offers _ pick (hcallee.each member hm)
  refine T.asking.run'_ensures _ ((withArgs T).map hall fun lists hlists offer hoffer => ?_) nofun
  obtain ⟨offers, hoffers, hoffer⟩ := List.mem_flatten.mp hoffer
  exact hlists offers hoffers offer hoffer

end Env.Keeps

theorem constructorParts_wellFormed (callee : NodeId) (args : List NodeId) (object : NodeId)
    (pick : Pick) : wellFormed.asking.Ensures
      (fun parts => (∀ offer ∈ parts.1, offer.WellFormed) ∧ parts.2.WellFormed)
      (constructorParts env callee args object pick) := by
  apply wellFormed.asking.bind (Env.Keeps.calleeOffers callee args pick)
  intro offers hoffers
  apply wellFormed.asking.bind (Env.Keeps.valueTy object)
  intro objectTy hobject
  exact wellFormed.asking.pure ⟨fun offer hoffer => (hoffers offer hoffer).holds trivial, hobject⟩

/-- If what the callee offers is no sentinel, a constructor call has the type that is offered, and
the object does not matter; else it has the type of the object. So the members of that type are
members of the type of the call exactly if nothing but sentinels is offered, or all of them are. -/
theorem inferPick_constructorCall (hcancelled : env.cancelled = false) {id callee object : NodeId}
    {args : List NodeId} (hnode : env.program.node? id = some (.call callee args))
    (hobject : constructed? env callee = some object) (pick : Pick) (memo : ClassMemo) :
    let parts := (constructorParts env callee args object pick).during env memo [.node id]
    let ret := parts.1.foldl Ty.join .unknown
    let ty := (inferPick env id pick { memo }).1
    (ret.isInvalid = false → ty = ret) ∧
    (ret.isInvalid = true → ty = ret.join parts.2 ∧
      ∀ m ∈ parts.2.each, m.isInvalid = false → m ∈ ty.each) ∧
    (env.WellFormed →
      (∀ m : Ty, m.WellFormed → (ty.Shows m ↔ (∃ offer ∈ parts.1, offer.Shows m) ∨
        (∀ offer ∈ parts.1, offer.isInvalid = true) ∧ parts.2.Shows m)) ∧
      ((∀ m ∈ parts.2.each, m.isInvalid = false → m.Among ty.each) ↔
        (∀ offer ∈ parts.1, offer.isInvalid = true) ∨
          ∀ m ∈ parts.2.each, m.isInvalid = false → ∃ offer ∈ parts.1, offer.Shows m)) := by
  intro parts ret ty
  have htype : ty = constructorTy parts.1 parts.2 :=
    (inferPick_call hcancelled hnode pick memo).trans (during_callTy hcancelled hobject args pick)
  refine ⟨fun hvalid => ?_, fun hinvalid => ?_, fun henv => ?_⟩
  · rw [htype, constructorTy]
    exact if_neg (Bool.eq_false_iff.mp hvalid)
  · have hjoin : ty = ret.join parts.2 := by
      rw [htype, constructorTy]
      exact if_pos hinvalid
    refine ⟨hjoin, fun m hm hvalid => ?_⟩
    rwa [hjoin, Ty.join_of_isInvalid_left hinvalid (Ty.isInvalid_of_mem_each hm hvalid)]
  · obtain ⟨hoffers, hobjectTy⟩ : (∀ offer ∈ parts.1, offer.WellFormed) ∧ parts.2.WellFormed :=
      Asking.during_keeps henv (constructorParts_wellFormed callee args object pick)
    rw [htype]
    exact ⟨fun _ => Ty.WellFormed.shows_constructorTy hoffers hobjectTy,
      Ty.WellFormed.among_constructorTy_iff hoffers hobjectTy⟩

namespace Draft

/-- The program `(1).new()`. -/
def numberMaker : Draft where
  nodes := #[.literal (.number "1"), .paren 0, .index 1 (.dot "new"), .call 2 [], .exprStat 3,
    .block [4]]
  files := #[⟨"number.lua", 5, false⟩]

abbrev numberMakerEnv : Env := .ofProgram numberMaker.build {}

theorem numberMaker_doc? (id : NodeId) : numberMaker.build.doc? id = none := by
  simp [Program.doc?, build, numberMaker]

theorem numberMaker_object {keys : List Key} (hparen : Key.node 1 ∉ keys)
    (hliteral : Key.node 0 ∉ .node 1 :: keys) (hroom : keys.length + 1 < maxInferDepth) :
    (valueTy 1).Yields numberMakerEnv keys .number (1 + (1 + 0)) := by
  have hone : (Query.answer numberMakerEnv (.value 0 (.nth 0))).Yields numberMakerEnv
      (.node 0 :: .node 1 :: keys) .number 0 := .pure _
  have hvalue : (Query.answer numberMakerEnv (.value 1 (.nth 0))).Yields numberMakerEnv
      (.node 1 :: keys) .number (1 + 0) :=
    .ask rfl hliteral hroom hone
  exact .ask rfl hparen (Nat.lt_of_succ_lt hroom) hvalue

theorem numberMaker_parts : (constructorParts numberMakerEnv 2 [] 1 (.nth 0)).Yields numberMakerEnv
    [.node 3] ([], .number) (3 + (2 + 0)) := by
  have hread : (readTy numberMakerEnv 2 1 (.dot "new")).Yields numberMakerEnv [.node 2, .node 3]
      .unknown (2 + 0) := by
    apply Asking.Yields.bind (numberMaker_object (by decide) (by decide) (by decide))
    exact .pure _
  have hcallee : (valueTy 2).Yields numberMakerEnv [.node 3] .unknown (1 + (2 + 0)) :=
    .ask rfl (by decide) (by decide) hread
  have hoffers : (calleeOffers numberMakerEnv 2 [] (.nth 0)).Yields numberMakerEnv [.node 3] []
      (3 + 0) := by
    apply Asking.Yields.bind hcallee
    exact .pure _
  apply Asking.Yields.bind hoffers
  apply Asking.Yields.bind (numberMaker_object (by decide) (by decide) (by decide))
  exact .pure _

end Draft

/-- Nothing is known of the callee, so the call has the type of the object. -/
theorem inferPick_constructorCall_number :
    let ty := (inferPick Draft.numberMakerEnv 3 (.nth 0) { memo := {} }).1
    (∀ m ∈ Ty.number.each, m.isInvalid = false → m ∈ ty.each) ∧
      ∀ m : Ty, m.WellFormed → (ty.Shows m ↔ Ty.number.Shows m) := by
  intro ty
  have hparts : (constructorParts Draft.numberMakerEnv 2 [] 1 (.nth 0)).during Draft.numberMakerEnv
      {} [.node 3] = ([], .number) :=
    Draft.numberMaker_parts.during (List.nodup_singleton _) (by decide) (by decide) {}
  have hprogram : Draft.numberMaker.build.WellFormed := by
    intro id doc hdoc
    rw [Draft.numberMaker_doc?] at hdoc
    cases hdoc
  have henv : Draft.numberMakerEnv.WellFormed := .intro hprogram (.ofProgram hprogram) _ _ _
  obtain ⟨-, hinvalid, hmembers⟩ :=
    @inferPick_constructorCall Draft.numberMakerEnv rfl 3 2 1 [] rfl rfl (.nth 0) {}
  rw [hparts] at hinvalid hmembers
  refine ⟨(hinvalid rfl).2, fun m hm => ?_⟩
  simpa using (hmembers henv).1 m hm

/-! A constructor that returns something. -/

namespace Draft

def makerTy : Ty := .func ⟨false, [], none, .number, []⟩ []

/-- Functions by name. -/
def makersTy : Ty := .generic (.cls (.deferred "table" 0)) [.string, makerTy]

/-- The program `local A A.new()`, whose comment says that `A` is a table of functions that return
numbers. -/
def makers : Draft where
  nodes := #[.nameDef "A", .localDef [0] [], .nameRef "A", .index 2 (.dot "new"), .call 3 [],
    .exprStat 4, .block [1, 5]]
  docs := ({} : Std.HashMap NodeId Doc).insert 1 { type? := some makersTy }
  files := #[⟨"makers.lua", 6, false⟩]

abbrev makersEnv : Env := .ofProgram makers.build {}

theorem makers_doc? (id : NodeId) :
    makers.build.doc? id = if 1 = id then some { type? := some makersTy } else none := by
  simp [Program.doc?, build, makers, Std.HashMap.getElem?_insert]

theorem makers_hasMembers (cls : String) : makersEnv.index.hasMembers cls = false := by
  have htags (id : NodeId) : makers.build.docClass? id = none := by
    rw [Program.docClass?, makers_doc?]
    by_cases h : 1 = id
    · rw [if_pos h]
      rfl
    · rw [if_neg h]
      rfl
  rw [Env.index_ofProgram]
  refine Index.hasMembers_eq_false htags (fun file hfile tagged => ?_) cls
  obtain rfl : file = ⟨0, "makers.lua", 6, false⟩ := List.mem_singleton.mp hfile
  rw [show makers.build.preorder ⟨0, "makers.lua", 6, false⟩ = [6, 1, 0, 5, 4, 3, 2] by decide]
  simp only [List.forall_mem_cons]
  exact ⟨rfl, Index.tableMembers_of_untagged (htags 1) _ _, rfl, rfl, rfl, rfl, rfl,
    List.forall_mem_nil _⟩

theorem makers_object {keys : List Key} (hname : Key.node 2 ∉ keys)
    (hdecl : Key.node 0 ∉ .node 2 :: keys) (hroom : keys.length + 1 < maxInferDepth) :
    (valueTy 2).Yields makersEnv keys makersTy (1 + (1 + 0)) := by
  have hdeclared : declaredTy? makersEnv 1 = pure (some makersTy) := by
    have hdoc : makersEnv.program.doc? 1 = some { type? := some makersTy } := makers_doc? 1
    rw [declaredTy?, hdoc]
    rfl
  have hplain : withLocalClass makersEnv 0 "A" makersTy = makersTy := by
    simp [withLocalClass, makers_hasMembers]
  have hdeclaration : (Query.answer makersEnv (.value 0 (.nth 0))).Yields makersEnv
      (.node 0 :: .node 2 :: keys) makersTy 0 := by
    have hlocal : Query.answer makersEnv (.value 0 (.nth 0)) = localTy makersEnv 1 0 "A" 0 [] := rfl
    rw [hlocal, localTy, if_pos rfl, hdeclared]
    refine Eq.subst (motive := fun ty => (pure ty : Asking Ty).Yields _ _ makersTy 0) hplain.symm ?_
    exact .pure _
  have hvalue : (Query.answer makersEnv (.value 2 (.nth 0))).Yields makersEnv
      (.node 2 :: keys) makersTy (1 + 0) :=
    .ask rfl hdecl hroom hdeclaration
  exact .ask rfl hname (Nat.lt_of_succ_lt hroom) hvalue

/-- `A.new` is a function that returns numbers, so `A.new()` is a number. -/
theorem makers_call : (ask (.value 4 (.nth 0))).Yields makersEnv [] .number (1 + (1 + 2)) := by
  have hread : (Query.answer makersEnv (.value 3 (.nth 0))).Yields makersEnv [.node 3, .node 4]
      makerTy 2 := by
    have hreadTy : Query.answer makersEnv (.value 3 (.nth 0))
        = readTy makersEnv 3 2 (.dot "new") := rfl
    have helement : elementTy makersTy (.dot "new") = makerTy := by rfl
    rw [hreadTy]
    apply Asking.Yields.bind (m := 0) (makers_object (by decide) (by decide) (by decide))
    rw [helement]
    exact .pure _
  have hcallee : (valueTy 3).Yields makersEnv [.node 4] makerTy (1 + 2) :=
    .ask rfl (by decide) (by decide) hread
  have hcall : (Query.answer makersEnv (.value 4 (.nth 0))).Yields makersEnv [.node 4]
      .number (1 + 2) := by
    have hcallTy : Query.answer makersEnv (.value 4 (.nth 0))
        = callTy makersEnv 3 [] (.nth 0) := rfl
    have hname : makersEnv.program.usedName? 3 = none := rfl
    have hret : calleeRet makersEnv (callOf makersEnv 3 []) (.nth 0) makerTy = pure .number := rfl
    rw [hcallTy, callTy, hname]
    apply Asking.Yields.bind (m := 0) hcallee
    rw [hret]
    apply Asking.Yields.bind (n := 0) (m := 0) (.pure _)
    exact .pure _
  exact .ask rfl (by decide) (by decide) hcall

/-- No limit is met, and the call of the constructor does not have the type of its object. -/
theorem makers_unlike_object : constructed? makersEnv 3 = some 2 ∧
    (∀ id ∈ [2, 4], (infer makersEnv id { memo := {} }).2.guard.hitLimit = false ∧
      (infer makersEnv id { memo := {} }).2.chainDepth.hitLimit = false) ∧
    ∃ m ∈ (infer makersEnv 2 { memo := {} }).1.each, m.isInvalid = false ∧
      ¬m.Among (infer makersEnv 4 { memo := {} }).1.each := by
  have hobject : (ask (.value 2 (.nth 0))).Yields makersEnv [] makersTy 2 :=
    makers_object (by decide) (by decide) (by decide)
  obtain ⟨g, hrun, hlimit⟩ := hobject.run (by decide) {}
  obtain ⟨g', hrun', hlimit'⟩ := makers_call.run (by decide) {}
  have hinfer : infer makersEnv 2 { memo := {} } = (makersTy, { memo := {}, guard := g }) := hrun
  have hinfer' : infer makersEnv 4 { memo := {} } = (.number, { memo := {}, guard := g' }) := hrun'
  simp only [List.forall_mem_cons, hinfer, hinfer']
  have hmember : makersTy ∈ makersTy.each := List.mem_singleton.mpr rfl
  refine ⟨rfl, ⟨⟨hlimit, rfl⟩, ⟨hlimit', rfl⟩, nofun⟩, makersTy, hmember, rfl, ?_⟩
  rintro ⟨m, hm, hsame⟩
  obtain rfl := List.mem_singleton.mp hm
  cases hsame

end Draft

end LuaTypes
