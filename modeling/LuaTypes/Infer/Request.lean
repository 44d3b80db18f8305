import LuaTypes.Guard
import LuaTypes.Index.Collect
import LuaTypes.Program.Modules
import LuaTypes.Settings
import LuaTypes.Ty.Alias

/-!
Inference requests. A request asks questions about a program; each question has a key, and a guard
refuses a question whose key is in progress already, that nests too deep, or that comes after the
budget is spent. A refused question is answered with the unknown type.

A computation stops at each question that it asks and goes on once it is answered, so that a run
can be followed from question to question.
-/

namespace LuaTypes

/-- What a request is made against. -/
structure Env where
  program : Program
  index : Index
  settings : Settings
  /-- The file that an imported path means. -/
  resolveModule? : String → Option FileId
  /-- Set once the request is to end early. -/
  cancelled : Bool

/-- The environment of a program with its index, where imports are looked up in its files. -/
def Env.ofProgram (program : Program) (settings : Settings) : Env :=
  ⟨program, .ofProgram program, settings, program.resolveModule?, false⟩

def Env.resolver (env : Env) : Resolver := env.index.resolver env.cancelled

/-- What a question in progress is about. -/
inductive Key
  | node (id : NodeId)
  | member (cls name : String)
  /-- An expression list, by its text. -/
  | text (text : String)
  | module (file : FileId)
  deriving DecidableEq, Hashable

/-- What a member is going to be used as. -/
inductive Use
  /-- It is called. -/
  | method
  /-- A field of it is read. -/
  | field
  | any
  deriving DecidableEq

/-- Which of the values of an expression is meant. -/
inductive Pick
  | nth (index : Nat)
  /-- All of them, as a tuple. -/
  | all

def Pick.of (pick : Pick) (ty : Ty) : Ty :=
  match pick with
  | .nth index => ty.valueAt index
  | .all => ty

/-- A question that the guard watches over. -/
inductive Query
  | value (node : NodeId) (pick : Pick)
  /-- A member of a class. -/
  | field (cls : ClassTy) (name : String) (use : Use)
  /-- The declarations of a global. -/
  | globalDecls (name : String)
  /-- One of the values of an expression list, known by a text. -/
  | listed (text : String) (values : List NodeId) (index : Nat)
  /-- The value that a file returns. -/
  | exported (file : FileId) (value : NodeId)

def Query.key : Query → Key
  | .value node _ => .node node
  | .field cls name _ => .member cls.name name
  | .globalDecls name => .member envWord name
  | .listed text _ _ => .text text
  | .exported file _ => .module file

/-- The state of a request: class details and member chains read so far, and the guard. -/
structure Request where
  memo : ClassMemo
  guard : Guard Key := .ofProfile .inference
  chainDepth : DepthCounter := .new maxChainDepth
  /-- Member chains by the name of their class. -/
  chains : Std.HashMap String (MemberChain MemberDecl) := {}

/-- A computation within a request that asks nothing. -/
abbrev Infer := StateM Request

namespace Infer

def read {α : Type} (act : Reading α) : Infer α := fun s =>
  let (a, memo) := act.run s.memo
  (a, { s with memo })

/-- Enters a key. -/
def enter (key : Key) : Infer Admission :=
  modifyGet fun s => let (a, guard) := s.guard.enter key; (a, { s with guard })

def leave (key : Key) : Infer Unit := modify fun s => { s with guard := s.guard.leave key }

/-- Answers under the guard: unknown, if the key is refused. -/
def guarded (key : Key) (answer : Infer Ty) : Infer Ty := do
  match ← enter key with
  | .entered =>
    let ty ← answer
    leave key
    return ty
  | _ => return .unknown

theorem guarded_apply (key : Key) (answer : Infer Ty) (s : Request) :
    guarded key answer s =
      match s.guard.enter key with
      | (.entered, guard) =>
        let (ty, s) := answer { s with guard }
        (ty, { s with guard := s.guard.leave key })
      | (_, guard) => (.unknown, { s with guard }) := by
  rcases h : s.guard.enter key with ⟨admission, guard⟩
  have henter : enter key s = (admission, { s with guard }) := by
    change ((s.guard.enter key).1, { s with guard := (s.guard.enter key).2 }) = _
    rw [h]
  simp only [guarded, bind, StateT.bind, henter]
  cases admission <;> rfl

/-- The type with its aliases expanded. -/
def expand (env : Env) (ty : Ty) : Infer Ty := read (expandAliases env.resolver ty)

end Infer

/-- How far a computation gets on its own: to its end, or to a question and what it does with the
answer. -/
inductive Run (α : Type)
  | done (value : α) (s : Request)
  | asks (q : Query) (s : Request) (resume : Ty → Request → Run α)

/-- A computation within a request that may ask questions. -/
def Asking (α : Type) := Request → Run α

namespace Run

variable {α β : Type}

def bind (f : α → Asking β) : Run α → Run β
  | done a s => f a s
  | asks q s resume => asks q s fun ty s => (resume ty s).bind f

/-- Runs to the end, where `answer` answers the questions. -/
def finish (answer : Query → Infer Ty) : Run α → α × Request
  | done a s => (a, s)
  | asks q s resume =>
    let (ty, s) := answer q s
    (resume ty s).finish answer

end Run

namespace Run

variable {α β γ : Type}

@[simp] theorem bind_done (r : Run α) : r.bind (fun a s => .done a s) = r := by
  induction r with
  | done a s => rfl
  | asks q s resume ih => simp only [bind, ih]

theorem bind_assoc (r : Run α) (f : α → Asking β) (g : β → Asking γ) :
    (r.bind f).bind g = r.bind fun a s => (f a s).bind g := by
  induction r with
  | done a s => rfl
  | asks q s resume ih => simp only [bind, ih]

/-- Running one computation after another. -/
theorem finish_bind (answer : Query → Infer Ty) (r : Run α) (f : α → Asking β) :
    (r.bind f).finish answer =
      let (a, s) := r.finish answer
      (f a s).finish answer := by
  induction r with
  | done a s => rfl
  | asks q s resume ih => exact ih _ _

end Run

instance : Monad Asking where
  pure a := fun s => .done a s
  bind x f := fun s => (x s).bind f

instance : LawfulMonad Asking := LawfulMonad.mk' Asking
  (fun x => funext fun s => Run.bind_done (x s))
  (fun _ _ => rfl)
  (fun x f g => funext fun s => Run.bind_assoc (x s) f g)

instance : MonadLift Infer Asking where
  monadLift x := fun s => let (a, s) := x s; .done a s

/-- Asks a question. -/
def ask (q : Query) : Asking Ty := fun s => .asks q s .done

/-- The union of the types of a list of things, none of them if the request is cancelled. -/
def Asking.unionOf {α : Type} (env : Env) (f : α → Asking Ty) (items : List α) : Asking Ty :=
  if env.cancelled then return .unknown
  else items.foldlM (fun ty a => return ty.join (← f a)) .unknown

end LuaTypes
