import LuaTypes.Proofs.SimulatedRequests

/-!
Requests step by step. A demand of a caller runs until it asks a question; if the guard lets the
question in, its answer runs in turn while the one who asked waits, and once it is done its key is
left and the one who asked goes on.
-/

namespace LuaTypes

/-- What a caller may demand of a request. -/
inductive Demand
  | infer (node : NodeId)
  | inferAt (node : NodeId) (index : Nat)
  | inferTuple (node : NodeId)
  | functionType (func : NodeId)
  | globalType (name : String)
  | lookupMember (ty : Ty) (name : String) (use : Use)
  | fieldType (cls : ClassTy) (name : String) (use : Use)
  | moduleType (file : FileId)
  | memberType (decl : MemberDecl)
  | memberChain (cls : ClassTy)

/-- What a demand gives. -/
inductive Outcome
  | ty (ty : Ty)
  | chain (chain : MemberChain MemberDecl)

namespace Demand

variable (env : Env)

/-- What is done to meet a demand. -/
def asking : Demand → Asking Outcome
  | .infer node => .ty <$> ask (.value node (.nth 0))
  | .inferAt node index => .ty <$> ask (.value node (.nth index))
  | .inferTuple node => .ty <$> ask (.value node .all)
  | .functionType func => .ty <$> functionTy env func
  | .globalType name => .ty <$> globalTy env name
  | .lookupMember ty name use => .ty <$> lookupTy env ty name use
  | .fieldType cls name use => .ty <$> fieldTy env cls name use
  | .moduleType file => .ty <$> moduleTy env file
  | .memberType decl => .ty <$> memberTy env decl
  | .memberChain cls => .chain <$> (LuaTypes.memberChain env cls : Asking _)

/-- Meets a demand. -/
def perform : Demand → Infer Outcome
  | .infer node => .ty <$> LuaTypes.infer env node
  | .inferAt node index => .ty <$> LuaTypes.inferAt env node index
  | .inferTuple node => .ty <$> LuaTypes.inferTuple env node
  | .functionType func => .ty <$> LuaTypes.functionType env func
  | .globalType name => .ty <$> LuaTypes.globalType env name
  | .lookupMember ty name use => .ty <$> LuaTypes.lookupMember env ty name use
  | .fieldType cls name use => .ty <$> LuaTypes.fieldType env cls name use
  | .moduleType file => .ty <$> LuaTypes.moduleType env file
  | .memberType decl => .ty <$> LuaTypes.memberType env decl
  | .memberChain cls => .chain <$> LuaTypes.memberChain env cls

end Demand

/-- Those who wait for an answer, the last to ask first, and what they do with the answer. At the
bottom is the caller, who waits for an `α`. -/
inductive Waiting (α : Type) : Type → Type 1
  | caller : Waiting α α
  | asker {β : Type} (key : Key) (resume : Ty → Request → Run β) (below : Waiting α β) :
    Waiting α Ty

/-- A moment of a request: what runs, and who waits for it. -/
structure Moment (α : Type) where
  {β : Type}
  run : Run β
  waiting : Waiting α β

/-- The state that a run has come to. -/
def Run.state {α : Type} : Run α → Request
  | .done _ s => s
  | .asks _ s _ => s

/-- The keys in progress, the last one entered first. -/
def Waiting.keys {α β : Type} : Waiting α β → List Key
  | .caller => []
  | .asker key _ below => key :: below.keys

namespace Moment

variable {α : Type}

def guard (m : Moment α) : Guard Key := m.run.state.guard

/-- The next moment, with the key that was let in on the way if there is one. There is none once the
caller has what it waits for. -/
def step (env : Env) : Moment α → Option (Option Key × Moment α)
  | ⟨.done _ _, .caller⟩ => none
  | ⟨.done ty s, .asker key resume below⟩ =>
    some (none, ⟨resume ty { s with guard := s.guard.leave key }, below⟩)
  | ⟨.asks q s resume, waiting⟩ =>
    if q.isOff env then some (none, ⟨resume .unknown s, waiting⟩)
    else
      match s.guard.enter q.key with
      | (.entered, guard) =>
        some (some q.key, ⟨q.answer env { s with guard }, .asker q.key resume waiting⟩)
      | (_, guard) => some (none, ⟨resume .unknown { s with guard }, waiting⟩)

end Moment

/-- Any number of steps. -/
inductive Steps {α : Type} (env : Env) : Moment α → Moment α → Prop
  | refl (m : Moment α) : Steps env m m
  | head {m m' m'' : Moment α} {key? : Option Key} :
    m.step env = some (key?, m') → Steps env m' m'' → Steps env m m''

/-- A request between two demands, or at work on one that it got in the state `start`. -/
inductive Stage
  | idle (s : Request)
  | busy (start : Request) (m : Moment Outcome)

/-- The stages that a request comes to, with the keys that were let in until then. -/
inductive Reached (env : Env) : List Key → Stage → Prop
  | new (memo : ClassMemo) : Reached env [] (.idle { memo })
  | demand {keys : List Key} {s : Request} (d : Demand) :
    Reached env keys (.idle s) → Reached env keys (.busy s ⟨d.asking env s, .caller⟩)
  | step {keys : List Key} {start : Request} {m m' : Moment Outcome} {key? : Option Key} :
    Reached env keys (.busy start m) → m.step env = some (key?, m') →
    Reached env (key?.toList ++ keys) (.busy start m')
  | met {keys : List Key} {start s : Request} {outcome : Outcome} :
    Reached env keys (.busy start ⟨.done outcome s, .caller⟩) → Reached env keys (.idle s)

end LuaTypes
