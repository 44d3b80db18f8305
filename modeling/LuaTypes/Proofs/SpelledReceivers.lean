import LuaTypes.Proofs.Alongside
import LuaTypes.Proofs.Nested

/-!
Calls with a colon, and the same calls with a dot and the receiver spelled out. Both find the same
signatures and bind type parameters and the self type alike. What differs is how many arguments a
signature is to take: the receiver is counted only where it is spelled out.
-/

namespace LuaTypes

/-- The nodes of a call of a member. -/
structure CallNodes where
  call : NodeId
  callee : NodeId
  object : NodeId

/-- A call with a colon of a member of a name, the same call with a dot, where the receiver comes
before the arguments, and the arguments of both. -/
structure CallPair where
  object : String
  member : String
  colon : CallNodes
  dot : CallNodes
  receiver : NodeId
  args : List (NodeId × NodeId)

namespace CallPair

variable (c : CallPair)

def colonArgs : List NodeId := c.args.map (·.1)

def dotArgs : List NodeId := c.receiver :: c.args.map (·.2)

/-- The calls are in the program, all three names have the same declaration, and what is done to
infer an argument of one call is what is done for that of the other. That holds of an argument that
the calls share, and of two literals or of two names with the same declaration. -/
structure Spells (env : Env) : Prop where
  colonCall : env.program.node? c.colon.call = some (.call c.colon.callee c.colonArgs)
  colonCallee : env.program.node? c.colon.callee = some (.index c.colon.object (.colon c.member))
  colonParent : env.program.parent? c.colon.callee = some c.colon.call
  dotCall : env.program.node? c.dot.call = some (.call c.dot.callee c.dotArgs)
  dotCallee : env.program.node? c.dot.callee = some (.index c.dot.object (.dot c.member))
  dotParent : env.program.parent? c.dot.callee = some c.dot.call
  colonObject : env.program.node? c.colon.object = some (.nameRef c.object)
  dotObjects (object : NodeId) : object = c.dot.object ∨ object = c.receiver →
    env.program.node? object = some (.nameRef c.object) ∧
    env.program.resolve? c.object object = env.program.resolve? c.object c.colon.object ∧
    env.program.selfReceiver? object = env.program.selfReceiver? c.colon.object
  args : ∀ arg ∈ c.args, arg.1 ≠ c.colon.call ∧ arg.2 ≠ c.dot.call ∧
    nodeTy env arg.1 (.nth 0) = nodeTy env arg.2 (.nth 0)

/-- The parts of the calls that are other nodes. -/
def parts : List (NodeId × NodeId) :=
  (c.colon.call, c.dot.call) :: (c.colon.callee, c.dot.callee) :: (c.colon.object, c.dot.object) ::
    (c.colon.object, c.receiver) :: c.args.filter fun arg => arg.1 != arg.2

/-- The question is not about a part of the call with a dot that is in progress, and not about the
counterpart of one. -/
def Clear (q : Query) (s : Request) : Prop :=
  ∀ part ∈ c.parts, .node part.2 ∈ s.guard.inProgress → q.key ≠ .node part.1 ∧ q.key ≠ .node part.2

end CallPair

/-! Members that are called. -/

section

variable (env : Env)

/-- The type of a member of an object, where the member is called. -/
def calledMemberTy (name : String) (objectTy : Ty) : Asking Ty :=
  let element := elementTy objectTy (.dot name)
  if !element.isInvalid then return element else lookupTy env objectTy name .method

variable {env}

theorem nodeTy_callee {call callee object : NodeId} {args : List NodeId} {key : IndexKey}
    {name : String} (hcall : env.program.node? call = some (.call callee args))
    (hcallee : env.program.node? callee = some (.index object key))
    (hparent : env.program.parent? callee = some call) (hkey : key = .dot name ∨ key = .colon name)
    (pick : Pick) :
    nodeTy env callee pick = valueTy object >>= calledMemberTy env name := by
  have htarget : env.program.assignTarget? callee = none := by
    simp [Program.assignTarget?, hparent, hcall]
  have huse : useOf env callee = .method := by
    simp [useOf, Program.parentNode?, hparent, hcall]
  unfold nodeTy
  simp only [hcallee, indexTy, htarget, readTy, huse]
  refine bind_congr fun objectTy => ?_
  rcases hkey with rfl | rfl
  · rfl
  · rfl

end

/-! The calls side by side. -/

theorem calledMemberTy_maps {env : Env} (name : String) (objectTy : Ty) :
    (Simulation.refl env).asking.Maps id (calledMemberTy env name objectTy)
      (calledMemberTy env name objectTy) := by
  have hlookup := (Simulation.refl env).lookupTy_maps objectTy name .method
  rw [Simulation.refl_rename] at hlookup
  unfold calledMemberTy
  dsimp only
  split
  · exact (Simulation.refl env).asking.pure id _
  · exact hlookup

theorem ne_of_node? {p : Program} {a b : NodeId} {node other : Node} (ha : p.node? a = some node)
    (hb : p.node? b = some other) (hne : node ≠ other) : a ≠ b :=
  fun heq => hne (Option.some_inj.mp (ha.symm.trans (heq ▸ hb)))

namespace CallPair

variable (c : CallPair) {env : Env} {room : Nat} {own : List (NodeId × NodeId)}

/-- Computations in the requests for the calls, while these parts are in progress. -/
def side (env : Env) (room : Nat) (own : List (NodeId × NodeId)) : Lifting Asking Asking :=
  sideBySide env c.Clear room (own.map fun part => .node part.1) (own.map fun part => .node part.2)

variable {c}

/-- What requests do alike they do alike here. -/
theorem side_extends (hown : own ⊆ c.parts) :
    (Simulation.refl env).Extends (c.side env room own) := by
  refine sideBySide_of_mirrored fun q => ask_sideBySide_self (fun q t hclear hbusy => ?_) q []
  have hpart : ∀ part ∈ own, q.key ≠ .node part.1 ∧ q.key ≠ .node part.2 := fun part hmem =>
    hclear part (hown hmem) (hbusy _ (List.mem_map_of_mem hmem))
  simp only [List.mem_map, not_exists, not_and]
  exact ⟨fun part hmem heq => (hpart part hmem).1 heq.symm,
    fun part hmem heq => (hpart part hmem).2 heq.symm⟩

/-- Two nodes that are not in progress have the same type if they are answered alike. -/
theorem value_side (part : NodeId × NodeId) {pick : Pick}
    (hfresh : ∀ other ∈ own, part.1 ≠ other.1 ∧ part.2 ≠ other.2)
    (h : ∀ room, (c.side env room (part :: own)).Maps id (nodeTy env part.1 pick)
      (nodeTy env part.2 pick)) :
    (c.side env room own).Maps id (ask (.value part.1 pick)) (ask (.value part.2 pick)) := by
  refine ask_sideBySide rfl (fun t _ _ => iff_of_false ?_ ?_) fun less _ => h less
  · simp only [Query.key, List.mem_map, Key.node.injEq, not_exists, not_and]
    exact fun other hother => (hfresh other hother).1.symm
  · simp only [Query.key, List.mem_map, Key.node.injEq, not_exists, not_and]
    exact fun other hother => (hfresh other hother).2.symm

/-- Two nodes have the same type if the same is done to infer it. -/
theorem alike_side {part : NodeId × NodeId} (hpart : part ∈ c.parts) (hown : own ⊆ c.parts)
    (hfresh : ∀ other ∈ own, part.1 ≠ other.1 ∧ part.2 ≠ other.2)
    (halike : nodeTy env part.1 (.nth 0) = nodeTy env part.2 (.nth 0)) :
    (c.side env room own).Maps id (valueTy part.1) (valueTy part.2) := by
  refine value_side part hfresh fun room => ?_
  have hmirrored := (Simulation.refl env).nodeTy_maps part.1 (.nth 0)
  rw [Simulation.refl_rename] at hmirrored
  rw [← halike]
  exact side_extends (List.cons_subset.mpr ⟨hpart, hown⟩) hmirrored

section

variable (h : c.Spells env)

include h

theorem Spells.object_alike {object : NodeId}
    (hobject : object = c.dot.object ∨ object = c.receiver) :
    nodeTy env c.colon.object (.nth 0) = nodeTy env object (.nth 0) := by
  obtain ⟨hnode, hresolve, hself⟩ := h.dotObjects object hobject
  rw [nodeTy_nameRef h.colonObject, nodeTy_nameRef hnode, nameTy, nameTy, hresolve, hself]

/-- The names have the same type, wherever the calls ask for it. -/
theorem Spells.object_side {object : NodeId} (hobject : object = c.dot.object ∨ object = c.receiver)
    (hown : ∀ part ∈ own,
      part = (c.colon.callee, c.dot.callee) ∨ part = (c.colon.call, c.dot.call)) :
    (c.side env room own).Maps id (valueTy c.colon.object) (valueTy object) := by
  have hnode := (h.dotObjects object hobject).1
  have hpart : (c.colon.object, object) ∈ c.parts := by
    rcases hobject with rfl | rfl <;> simp [parts]
  have hparts : own ⊆ c.parts := fun part hmem => by
    rcases hown part hmem with rfl | rfl <;> simp [parts]
  refine alike_side hpart hparts (fun part hmem => ?_) (h.object_alike hobject)
  rcases hown part hmem with rfl | rfl
  · exact ⟨ne_of_node? h.colonObject h.colonCallee nofun, ne_of_node? hnode h.dotCallee nofun⟩
  · exact ⟨ne_of_node? h.colonObject h.colonCall nofun, ne_of_node? hnode h.dotCall nofun⟩

theorem Spells.object_call {object : NodeId}
    (hobject : object = c.dot.object ∨ object = c.receiver) :
    (c.side env room [(c.colon.call, c.dot.call)]).Maps id (valueTy c.colon.object)
      (valueTy object) :=
  h.object_side hobject fun _ hmem => .inr (List.mem_singleton.mp hmem)

theorem Spells.callee_side :
    (c.side env room [(c.colon.call, c.dot.call)]).Maps id (valueTy c.colon.callee)
      (valueTy c.dot.callee) := by
  have hfresh : ∀ part ∈ [(c.colon.call, c.dot.call)],
      c.colon.callee ≠ part.1 ∧ c.dot.callee ≠ part.2 :=
    List.forall_mem_singleton.mpr
      ⟨ne_of_node? h.colonCallee h.colonCall nofun, ne_of_node? h.dotCallee h.dotCall nofun⟩
  refine value_side (c.colon.callee, c.dot.callee) hfresh fun room => ?_
  rw [nodeTy_callee h.colonCall h.colonCallee h.colonParent (.inr rfl),
    nodeTy_callee h.dotCall h.dotCallee h.dotParent (.inl rfl)]
  refine (c.side env room _).bind (h.object_side (.inl rfl) fun part hmem => ?_) fun objectTy => ?_
  · simpa using hmem
  · exact side_extends (by simp [parts]) (calledMemberTy_maps c.member objectTy)

theorem Spells.arg_side {arg : NodeId × NodeId} (harg : arg ∈ c.args) :
    (c.side env room [(c.colon.call, c.dot.call)]).Maps id (valueTy arg.1) (valueTy arg.2) := by
  have hown : [(c.colon.call, c.dot.call)] ⊆ c.parts := by simp [parts]
  obtain ⟨hfresh, hfresh', halike⟩ := h.args arg harg
  by_cases hsame : arg.1 = arg.2
  · have hmirrored := (Simulation.refl env).valueTy_maps arg.1
    rw [Simulation.refl_rename] at hmirrored
    rw [← hsame]
    exact side_extends hown hmirrored
  · have hpart : arg ∈ c.parts := by simp [parts, harg, hsame]
    exact alike_side hpart hown (List.forall_mem_singleton.mpr ⟨hfresh, hfresh'⟩) halike

theorem Spells.callOf_colon : callOf env c.colon.callee c.colonArgs
    = ⟨some ⟨c.colon.object, true⟩, c.colonArgs⟩ := by
  simp [callOf, h.colonCallee]

theorem Spells.callOf_dot : callOf env c.dot.callee c.dotArgs
    = ⟨some ⟨c.dot.object, false⟩, c.dotArgs⟩ := by
  simp [callOf, h.dotCallee]

/-- The receiver comes first among the arguments of both calls. -/
theorem Spells.argTypes_side :
    (c.side env room [(c.colon.call, c.dot.call)]).Maps id
      (callOf env c.colon.callee c.colonArgs).argTypes
      (callOf env c.dot.callee c.dotArgs).argTypes := by
  let L := c.side env room [(c.colon.call, c.dot.call)]
  have hcolon : (callOf env c.colon.callee c.colonArgs).argTypes = (do
      let receiver ← valueTy c.colon.object
      return receiver :: (← c.args.mapM fun arg => valueTy arg.1)) := by
    rw [h.callOf_colon]
    simp only [Call.argTypes, Call.receiverTypes, colonArgs, List.mapM_map, bind_pure_comp,
      bind_map_left]
    rfl
  have hdot : (callOf env c.dot.callee c.dotArgs).argTypes = (do
      let receiver ← valueTy c.receiver
      return receiver :: (← c.args.mapM fun arg => valueTy arg.2)) := by
    rw [h.callOf_dot]
    simp only [Call.argTypes, Call.receiverTypes, dotArgs, List.mapM_cons, List.mapM_map,
      bind_pure_comp, map_bind, Functor.map_map, pure_bind, List.nil_append]
    rfl
  have hargs := L.mapM (φ := id) id (f := fun arg => valueTy arg.1) (g := fun arg => valueTy arg.2)
    c.args fun arg harg => h.arg_side harg
  rw [hcolon, hdot]
  rw [List.map_id, List.map_id_fun] at hargs
  refine L.bind (h.object_call (.inr rfl)) fun receiver => ?_
  exact L.bind hargs fun types => L.pure id (receiver :: types)

theorem Spells.callMaps : (Simulation.refl env).CallMaps
    (c.side env room [(c.colon.call, c.dot.call)]) (callOf env c.colon.callee c.colonArgs)
    (callOf env c.dot.callee c.dotArgs) where
  args := by
    rw [Simulation.refl_rename, List.map_id_fun]
    exact h.argTypes_side
  receiver := by
    rw [h.callOf_colon, h.callOf_dot, Simulation.refl_rename]
    exact .some (h.object_call (.inl rfl))

/-- Where the same number of arguments is taken for granted, the calls have the same type. -/
theorem Spells.calledTy_side (count : Nat) (pick : Pick) :
    (c.side env room [(c.colon.call, c.dot.call)]).Maps id
      (calledTy env c.colon.callee c.colonArgs count pick)
      (calledTy env c.dot.callee c.dotArgs count pick) := by
  let L := c.side env room [(c.colon.call, c.dot.call)]
  have hobject : L.Maps id (valueTy c.colon.object) (valueTy c.dot.object) :=
    h.object_call (.inl rfl)
  have hconstructed : Option.Rel
      (fun object object' => L.Maps id (valueTy object) (valueTy object'))
      (constructed? env c.colon.callee) (constructed? env c.dot.callee) := by
    simp only [constructed?, h.colonCallee, h.dotCallee]
    split
    · exact .some hobject
    · exact .none
  have hextends : (Simulation.refl env).Extends L := side_extends (by simp [parts])
  have hcallee : L.Maps id (valueTy c.colon.callee) (valueTy c.dot.callee) := h.callee_side
  rw [← Simulation.refl_rename env] at hconstructed hcallee ⊢
  exact Simulation.calledTy_maps hextends hcallee h.callMaps hconstructed count pick

theorem Spells.callTy_colon (pick : Pick) : callTy env c.colon.callee c.colonArgs pick
    = calledTy env c.colon.callee c.colonArgs c.args.length pick := by
  have hlength : c.colonArgs.length = c.args.length := List.length_map _
  have hname : env.program.usedName? c.colon.callee = none := by
    simp [Program.usedName?, h.colonCallee, Node.usedName?]
  rw [callTy_eq_calledTy, hname, hlength]
  rfl

theorem Spells.callTy_dot (pick : Pick) : callTy env c.dot.callee c.dotArgs pick
    = calledTy env c.dot.callee c.dotArgs (c.args.length + 1) pick := by
  have hlength : c.dotArgs.length = c.args.length + 1 := by simp [dotArgs]
  have hname : env.program.usedName? c.dot.callee = none := by
    simp [Program.usedName?, h.dotCallee, Node.usedName?]
  rw [callTy_eq_calledTy, hname, hlength]
  rfl

end

/-- What is inferred for the call with a colon, where signatures are to take `count` arguments. -/
def colonTy (c : CallPair) (env : Env) (memo : ClassMemo) (count : Nat) (pick : Pick) : Ty :=
  (calledTy env c.colon.callee c.colonArgs count pick).during env memo [.node c.colon.call]

theorem Spells.inferPick_colon (h : c.Spells env) (hcancelled : env.cancelled = false)
    (memo : ClassMemo) (pick : Pick) :
    (inferPick env c.colon.call pick { memo }).1 = c.colonTy env memo c.args.length pick := by
  rw [inferPick_call hcancelled h.colonCall, h.callTy_colon]
  rfl

/-- If the call with a dot does not come back to either call, it has the type that the call with a
colon would have if its receiver were counted. -/
theorem Spells.inferPick_dot (h : c.Spells env) (hcancelled : env.cancelled = false)
    {memo : ClassMemo} {pick : Pick}
    (hclear : (Query.value c.dot.call pick).Throughout env c.Clear maxInferDepth { memo }) :
    (inferPick env c.dot.call pick { memo }).1 = c.colonTy env memo (c.args.length + 1) pick := by
  have hroom : maxInferDepth = maxInferDepth - 1 + 1 := rfl
  rw [hroom] at hclear
  have hon : (Query.value c.dot.call pick).isOff env = false := by simp [Query.isOff, hcancelled]
  have hthroughout := hclear.2 hon _
    (Guard.enter_during (List.pairwise_singleton _ (Key.node c.dot.call)) (by decide))
  rw [Query.answer, nodeTy_call h.dotCall, h.callTy_dot] at hthroughout
  have hagree := h.calledTy_side (c.args.length + 1) pick _ _
    (.during env memo (.node c.colon.call) (.node c.dot.call)) hthroughout
  rw [inferPick_call hcancelled h.dotCall, h.callTy_dot]
  exact hagree.1

/-- What is inferred for the callee of the call with a colon. -/
def calleeTy (c : CallPair) (env : Env) (memo : ClassMemo) : Ty :=
  (valueTy c.colon.callee).during env memo [.node c.colon.call]

theorem colonTy_congr (env : Env) (memo : ClassMemo) {count count' : Nat}
    (h : ∀ main overloads, .func main overloads ∈ (c.calleeTy env memo).each →
      matchingSignatures main overloads count = matchingSignatures main overloads count')
    (pick : Pick) : c.colonTy env memo count pick = c.colonTy env memo count' pick := by
  unfold colonTy calledTy
  refine Asking.during_bind_rel _ fun s => ?_
  have hcallee : (valueTy c.colon.callee).during env memo [.node c.colon.call]
      = c.calleeTy env memo := rfl
  rw [hcallee, calleeRetFor_congr env h]

/-- The calls are inferred alike but for the number of arguments that signatures are to take, which
leaves the receiver out for the call with a colon. So the calls have the same type if the same
signatures answer either way. -/
theorem Spells.inferPick_calls (h : c.Spells env) (hcancelled : env.cancelled = false)
    {memo : ClassMemo} {pick : Pick}
    (hclear : (Query.value c.dot.call pick).Throughout env c.Clear maxInferDepth { memo }) :
    let colon := (inferPick env c.colon.call pick { memo }).1
    let dot := (inferPick env c.dot.call pick { memo }).1
    colon = c.colonTy env memo c.args.length pick ∧
    dot = c.colonTy env memo (c.args.length + 1) pick ∧
    ((∀ main overloads, .func main overloads ∈ (c.calleeTy env memo).each →
      matchingSignatures main overloads c.args.length
        = matchingSignatures main overloads (c.args.length + 1)) → colon = dot) := by
  intro colon dot
  have hcolon := h.inferPick_colon hcancelled memo pick
  have hdot := h.inferPick_dot hcancelled hclear
  refine ⟨hcolon, hdot, fun hsame => ?_⟩
  exact hcolon.trans ((colonTy_congr env memo hsame pick).trans hdot.symm)

end CallPair

namespace Draft

/-- A function of one parameter that returns numbers, and if it is overloaded, without arguments
strings. -/
def methodTy (overloaded : Bool) : Ty :=
  .func ⟨false, [⟨"x", .unknown⟩], none, .number, []⟩
    (if overloaded then [⟨false, [], none, .string, []⟩] else [])

/-- Functions by name. -/
def methodsTy (overloaded : Bool) : Ty :=
  .generic (.cls (.deferred "table" 0)) [.string, methodTy overloaded]

/-- The program `local A A:m() A.m(A)`, whose comment says that `A` is a table of functions. -/
def callers (overloaded : Bool) : Draft where
  nodes := #[.nameDef "A", .localDef [0] [], .nameRef "A", .index 2 (.colon "m"), .call 3 [],
    .exprStat 4, .nameRef "A", .index 6 (.dot "m"), .nameRef "A", .call 7 [8], .exprStat 9,
    .block [1, 5, 10]]
  docs := ({} : Std.HashMap NodeId Doc).insert 1 { type? := some (methodsTy overloaded) }
  files := #[⟨"calls.lua", 11, false⟩]

/-- `A:m()` and `A.m(A)`. -/
def callerPair : CallPair := ⟨"A", "m", ⟨4, 3, 2⟩, ⟨9, 7, 6⟩, 8, []⟩

section

variable (overloaded : Bool)

abbrev callersEnv : Env := .ofProgram (callers overloaded).build {}

theorem callers_doc? (id : NodeId) : (callers overloaded).build.doc? id
    = if 1 = id then some { type? := some (methodsTy overloaded) } else none := by
  simp [Program.doc?, build, callers, Std.HashMap.getElem?_insert]

theorem callers_preorder : ∀ overloaded,
    (callers overloaded).build.preorder ⟨0, "calls.lua", 11, false⟩
      = [11, 1, 0, 5, 4, 3, 2, 10, 9, 7, 6, 8] := by
  decide

theorem callers_hasMembers (cls : String) :
    (callersEnv overloaded).index.hasMembers cls = false := by
  have htags (id : NodeId) : (callers overloaded).build.docClass? id = none := by
    rw [Program.docClass?, callers_doc?]
    by_cases h : 1 = id
    · rw [if_pos h]
      rfl
    · rw [if_neg h]
      rfl
  rw [Env.index_ofProgram]
  refine Index.hasMembers_eq_false htags (fun file hfile tagged => ?_) cls
  obtain rfl : file = ⟨0, "calls.lua", 11, false⟩ := List.mem_singleton.mp hfile
  rw [callers_preorder]
  simp only [List.forall_mem_cons]
  exact ⟨rfl, Index.tableMembers_of_untagged (htags 1) _ _, rfl, rfl, rfl, rfl, rfl, rfl, rfl, rfl,
    rfl, rfl, List.forall_mem_nil _⟩

theorem callers_parents : ∀ overloaded,
    (callersEnv overloaded).program.parent? 0 = some 1 ∧
    (callersEnv overloaded).program.parent? 3 = some 4 ∧
    (callersEnv overloaded).program.parent? 7 = some 9 := by
  decide

/-- All three names mean the local. -/
theorem callers_names : ∀ overloaded, ∀ name ∈ [2, 6, 8],
    (callersEnv overloaded).program.node? name = some (.nameRef "A") ∧
    (callersEnv overloaded).program.resolve? "A" name = some 0 ∧
    (callersEnv overloaded).program.selfReceiver? name = none := by
  decide

theorem callers_spells : callerPair.Spells (callersEnv overloaded) where
  colonCall := rfl
  colonCallee := rfl
  colonParent := (callers_parents overloaded).2.1
  dotCall := rfl
  dotCallee := rfl
  dotParent := (callers_parents overloaded).2.2
  colonObject := rfl
  dotObjects name hname := by
    have hnames := callers_names overloaded
    have hmem : name ∈ [2, 6, 8] := by rcases hname with rfl | rfl <;> decide
    obtain ⟨hnode, hresolve, hself⟩ := hnames name hmem
    obtain ⟨-, hresolve', hself'⟩ := hnames 2 (by decide)
    exact ⟨hnode, hresolve.trans hresolve'.symm, hself.trans hself'.symm⟩
  args := List.forall_mem_nil _

variable {overloaded} {keys : List Key}

theorem callers_clear {q : Query} (h : ∀ part ∈ callerPair.parts,
      Key.node part.2 ∈ keys → q.key ≠ .node part.1 ∧ q.key ≠ .node part.2) (s : Request)
    (hopen : s.guard.Open keys) : callerPair.Clear q s :=
  fun part hpart hbusy => h part hpart ((hopen.mem _).mp hbusy)

theorem callers_decl : (Query.answer (callersEnv overloaded)
    (.value 0 (.nth 0))).YieldsWith (callersEnv overloaded) callerPair.Clear keys
      (methodsTy overloaded) 0 := by
  have hdeclared : declaredTy? (callersEnv overloaded) 1 = pure (some (methodsTy overloaded)) := by
    have hdoc : (callersEnv overloaded).program.doc? 1
        = some { type? := some (methodsTy overloaded) } := callers_doc? overloaded 1
    rw [declaredTy?, hdoc]
    rfl
  have hplain : withLocalClass (callersEnv overloaded) 0 "A" (methodsTy overloaded)
      = methodsTy overloaded := by
    simp [withLocalClass, callers_hasMembers]
  have hlocal : Query.answer (callersEnv overloaded) (.value 0 (.nth 0))
      = localTy (callersEnv overloaded) 1 0 "A" 0 [] := by
    change declarationTy (callersEnv overloaded) 0 "A" = _
    rw [declarationTy, (callers_parents overloaded).1]
    rfl
  have hdone : (pure (withLocalClass (callersEnv overloaded) 0 "A" (methodsTy overloaded)) :
      Asking Ty).YieldsWith (callersEnv overloaded) callerPair.Clear keys (methodsTy overloaded) 0 := by
    rw [hplain]
    exact .pure _
  rw [hlocal, localTy, if_pos rfl, hdeclared]
  exact hdone

theorem callers_object {name : NodeId} (hname : name ∈ [2, 6, 8])
    (hfresh : Key.node name ∉ keys) (hdecl : Key.node 0 ∉ .node name :: keys)
    (hroom : keys.length + 1 < maxInferDepth)
    (hclear : ∀ part ∈ callerPair.parts, Key.node part.2 ∈ keys →
      Key.node name ≠ .node part.1 ∧ Key.node name ≠ .node part.2) :
    (valueTy name).YieldsWith (callersEnv overloaded) callerPair.Clear keys (methodsTy overloaded)
      (1 + (1 + 0)) := by
  obtain ⟨hnode, hresolve, -⟩ := callers_names overloaded name hname
  have hanswer : Query.answer (callersEnv overloaded) (.value name (.nth 0)) = valueTy 0 := by
    rw [Query.answer, nodeTy_nameRef hnode, nameTy, hresolve]
  have hother : ∀ part ∈ callerPair.parts,
      Key.node 0 ≠ .node part.1 ∧ Key.node 0 ≠ .node part.2 := by decide
  have hvalue : (Query.answer (callersEnv overloaded) (.value name (.nth 0))).YieldsWith
      (callersEnv overloaded) callerPair.Clear (.node name :: keys) (methodsTy overloaded)
      (1 + 0) := by
    rw [hanswer]
    exact .ask rfl hdecl hroom (callers_clear fun part hpart _ => hother part hpart) callers_decl
  exact .ask rfl hfresh (Nat.lt_of_succ_lt hroom) (callers_clear hclear) hvalue

theorem callers_callee (nodes : CallNodes) (hnodes : nodes ∈ [callerPair.colon, callerPair.dot])
    (hread : Query.answer (callersEnv overloaded) (.value nodes.callee (.nth 0))
      = valueTy nodes.object >>= calledMemberTy (callersEnv overloaded) "m") :
    (valueTy nodes.callee).YieldsWith (callersEnv overloaded) callerPair.Clear [.node nodes.call]
      (methodTy overloaded) (1 + (2 + 0)) := by
  have hfresh : ∀ nodes ∈ [callerPair.colon, callerPair.dot], nodes.object ∈ [2, 6, 8] ∧
      [Key.node 0, .node nodes.object, .node nodes.callee, .node nodes.call].Nodup := by decide
  have hclear : ∀ nodes ∈ [callerPair.colon, callerPair.dot], ∀ part ∈ callerPair.parts,
      (Key.node part.2 ∈ [Key.node nodes.call] →
        Key.node nodes.callee ≠ .node part.1 ∧ Key.node nodes.callee ≠ .node part.2) ∧
      (Key.node part.2 ∈ [Key.node nodes.callee, .node nodes.call] →
        Key.node nodes.object ≠ .node part.1 ∧ Key.node nodes.object ≠ .node part.2) := by decide
  obtain ⟨hname, hnodup⟩ := hfresh nodes hnodes
  obtain ⟨hdecl, hnodup⟩ := List.nodup_cons.mp hnodup
  obtain ⟨hobject, hnodup⟩ := List.nodup_cons.mp hnodup
  have helement : elementTy (methodsTy overloaded) (.dot "m") = methodTy overloaded := by rfl
  have hroom : 2 + 1 < maxInferDepth := by decide
  refine .ask rfl (List.nodup_cons.mp hnodup).1 (Nat.lt_of_succ_lt (Nat.lt_of_succ_lt hroom))
    (callers_clear fun part hpart => (hclear nodes hnodes part hpart).1) ?_
  rw [hread]
  apply Asking.YieldsWith.bind
    (callers_object hname hobject hdecl hroom fun part hpart => (hclear nodes hnodes part hpart).2)
  rw [calledMemberTy, helement]
  exact .pure _

theorem callers_call (nodes : CallNodes) (hnodes : nodes ∈ [callerPair.colon, callerPair.dot])
    {args : List NodeId} {count : Nat} {ret : Ty}
    (hread : Query.answer (callersEnv overloaded) (.value nodes.callee (.nth 0))
      = valueTy nodes.object >>= calledMemberTy (callersEnv overloaded) "m")
    (hcall : Query.answer (callersEnv overloaded) (.value nodes.call (.nth 0))
      = calledTy (callersEnv overloaded) nodes.callee args count (.nth 0))
    (hret : calleeRetFor (callersEnv overloaded) (callOf (callersEnv overloaded) nodes.callee args)
      count (.nth 0) (methodTy overloaded) = pure ret) (hvalid : ret.isInvalid = false) :
    (ask (.value nodes.call (.nth 0))).YieldsWith (callersEnv overloaded) callerPair.Clear [] ret
      (1 + (3 + 0)) := by
  refine .ask rfl List.not_mem_nil (by decide) (callers_clear fun _ _ hbusy => nomatch hbusy) ?_
  rw [hcall, calledTy]
  apply Asking.YieldsWith.bind (callers_callee nodes hnodes hread)
  rw [hret, pure_bind, hvalid]
  exact .pure _

variable (overloaded)

theorem callers_readColon : Query.answer (callersEnv overloaded) (.value 3 (.nth 0))
    = valueTy 2 >>= calledMemberTy (callersEnv overloaded) "m" :=
  have h := callers_spells overloaded
  nodeTy_callee h.colonCall h.colonCallee h.colonParent (.inr rfl) (.nth 0)

theorem callers_colon : (ask (.value 4 (.nth 0))).YieldsWith (callersEnv overloaded)
    callerPair.Clear [] (if overloaded then .string else .number) 4 := by
  have h := callers_spells overloaded
  have hcall := (nodeTy_call h.colonCall (.nth 0)).trans (h.callTy_colon (.nth 0))
  refine callers_call callerPair.colon List.mem_cons_self (callers_readColon overloaded) hcall ?_ ?_
  · cases overloaded <;> rfl
  · cases overloaded <;> rfl

theorem callers_dot : (ask (.value 9 (.nth 0))).YieldsWith (callersEnv overloaded)
    callerPair.Clear [] .number 4 := by
  have h := callers_spells overloaded
  have hcall := (nodeTy_call h.dotCall (.nth 0)).trans (h.callTy_dot (.nth 0))
  refine callers_call callerPair.dot (List.mem_cons_of_mem _ List.mem_cons_self)
    (nodeTy_callee h.dotCall h.dotCallee h.dotParent (.inl rfl) (.nth 0)) hcall ?_ rfl
  cases overloaded <;> rfl

end

/-- The calls have the type that the function returns, which is the same however many arguments it
is to take. -/
theorem callers_alike : (inferPick (callersEnv false) 4 (.nth 0) { memo := {} }).1
    = (inferPick (callersEnv false) 9 (.nth 0) { memo := {} }).1 := by
  have hclear := (callers_dot false).request (by decide) {}
  have hcallee : callerPair.calleeTy (callersEnv false) {} = methodTy false :=
    (callers_callee callerPair.colon List.mem_cons_self (callers_readColon false)).yields.during
      (List.pairwise_singleton _ _) (by decide) (by decide) {}
  obtain ⟨-, -, halike⟩ := (callers_spells false).inferPick_calls rfl hclear
  refine halike fun main overloads hmem => ?_
  rw [hcallee] at hmem
  obtain ⟨rfl, rfl⟩ := Ty.func.inj (List.mem_singleton.mp hmem)
  rfl

/-- No limit is met, and the calls have different types: without arguments it is the overload that
answers, and with the receiver for an argument the main signature. -/
theorem callers_differ : callerPair.Spells (callersEnv true) ∧
    (∀ id ∈ [4, 9], (infer (callersEnv true) id { memo := {} }).2.guard.hitLimit = false ∧
      (infer (callersEnv true) id { memo := {} }).2.chainDepth.hitLimit = false) ∧
    (infer (callersEnv true) 4 { memo := {} }).1
      ≠ (infer (callersEnv true) 9 { memo := {} }).1 := by
  obtain ⟨g, hrun, hlimit⟩ := (callers_colon true).yields.run (by decide) {}
  obtain ⟨g', hrun', hlimit'⟩ := (callers_dot true).yields.run (by decide) {}
  have hcolon : infer (callersEnv true) 4 { memo := {} } = (.string, { memo := {}, guard := g }) :=
    hrun
  have hdot : infer (callersEnv true) 9 { memo := {} } = (.number, { memo := {}, guard := g' }) :=
    hrun'
  simp only [List.forall_mem_cons, hcolon, hdot]
  exact ⟨callers_spells true, ⟨⟨hlimit, rfl⟩, ⟨hlimit', rfl⟩, nofun⟩, nofun⟩

end Draft

end LuaTypes
