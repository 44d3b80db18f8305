/-!
Bounds that keep every walk finite on programs that refer to themselves.
-/

namespace LuaTypes

/-- Nesting of questions within one inference request. -/
def maxInferDepth : Nat := 200

/-- Questions asked within one inference request, refused ones included. -/
def maxInferWork : Nat := 100000

/-- Superclass nesting while a member chain is built. -/
def maxChainDepth : Nat := 64

/-- Classes seen by one superclass walk, the start included. -/
def maxSuperclassWalk : Nat := 256

/-- Nesting of one substitution, the root at depth one. -/
def maxSubstDepth : Nat := 50

/-- The largest value of a 32-bit counter. -/
def maxWord32 : Nat := 4294967295

end LuaTypes
