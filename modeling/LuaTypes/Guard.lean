import Std.Data.HashSet
import LuaTypes.Limits

/-!
Guards against endless re-entry. A guard refuses a key that is already in progress, nesting beyond a
depth, and more attempts than a budget. A depth counter bounds the nesting alone.
-/

namespace LuaTypes

/-- Limits by kind of walk. -/
inductive LimitProfile
  | inference | memberChain | substitution
  | custom (maxDepth maxWork : Nat)

namespace LimitProfile

def maxDepth : LimitProfile → Nat
  | .inference => maxInferDepth
  | .memberChain => maxChainDepth
  | .substitution => maxSubstDepth
  | .custom d _ => d

def maxWork : LimitProfile → Nat
  | .custom _ w => w
  | _ => maxInferWork

end LimitProfile

/-- How a guard answers an attempt to enter. -/
inductive Admission
  | entered
  /-- The key is in progress already. -/
  | cycle
  | depthExceeded
  | budgetExhausted
  deriving DecidableEq

namespace Admission

/-- A limit, and not a cycle, refused the entry. -/
def isLimit : Admission → Bool
  | .depthExceeded | .budgetExhausted => true
  | _ => false

def name : Admission → String
  | .entered => "Entered"
  | .cycle => "Cycle"
  | .depthExceeded => "DepthExceeded"
  | .budgetExhausted => "BudgetExhausted"

end Admission

/-- The keys in progress, the nesting, and the attempts made so far. -/
structure Guard (κ : Type) [BEq κ] [Hashable κ] where
  maxDepth : Nat
  maxWork : Nat
  inProgress : Std.HashSet κ := {}
  depth : Nat := 0
  work : Nat := 0
  /-- Some limit has refused an entry. -/
  hitLimit : Bool := false

namespace Guard

variable {κ : Type} [BEq κ] [Hashable κ]

def new (maxDepth maxWork : Nat) : Guard κ := { maxDepth, maxWork }

def ofProfile (p : LimitProfile) : Guard κ := new p.maxDepth p.maxWork

/-- Attempts to enter. Every attempt counts as work; the budget is checked first, then the depth,
and then the key. -/
def enter (g : Guard κ) (key : κ) : Admission × Guard κ :=
  let work := min (g.work + 1) maxWord32
  if g.maxWork < work then (.budgetExhausted, { g with work, hitLimit := true })
  else if g.maxDepth ≤ g.depth then (.depthExceeded, { g with work, hitLimit := true })
  else if g.inProgress.contains key then (.cycle, { g with work })
  else (.entered, { g with work, depth := g.depth + 1, inProgress := g.inProgress.insert key })

/-- Leaves a key that was entered. -/
def leave (g : Guard κ) (key : κ) : Guard κ :=
  { g with inProgress := g.inProgress.erase key, depth := g.depth - 1 }

def isInProgress (g : Guard κ) (key : κ) : Bool := g.inProgress.contains key

end Guard

/-- A bound on nesting. -/
structure DepthCounter where
  maxDepth : Nat
  depth : Nat := 0
  hitLimit : Bool := false

namespace DepthCounter

def new (maxDepth : Nat) : DepthCounter := { maxDepth }

/-- Goes one level deeper, unless the limit is reached: then only the refusal is noted. -/
def enter (d : DepthCounter) : Bool × DepthCounter :=
  if d.maxDepth ≤ d.depth then (false, { d with hitLimit := true })
  else (true, { d with depth := d.depth + 1 })

def leave (d : DepthCounter) : DepthCounter := { d with depth := d.depth - 1 }

end DepthCounter

end LuaTypes
