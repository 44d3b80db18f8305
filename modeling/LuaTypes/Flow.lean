/-!
Visitors that may end a visit early.
-/

namespace LuaTypes

/-- A visitor's answer to one item. -/
inductive Flow
  | next | stop
  deriving DecidableEq

variable {m : Type → Type} [Monad m] {α : Type}

/-- Offers the items in order until the visitor stops; the answer says whether it did. -/
def offer (visitor : α → m Flow) : List α → m Flow
  | [] => return .next
  | a :: rest => do
    match ← visitor a with
    | .stop => return .stop
    | .next => offer visitor rest

/-- Offers the items in order until the visitor stops. Before each item it is asked whether the
visit is off, which ends it without a stop. -/
def offerUntil (off : m Bool) (visitor : α → m Flow) : List α → m Flow
  | [] => return .next
  | a :: rest => do
    if ← off then return .next
    match ← visitor a with
    | .stop => return .stop
    | .next => offerUntil off visitor rest

end LuaTypes
