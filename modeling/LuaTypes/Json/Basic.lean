/-!
JSON values. The members of an object keep their order and their repetitions.
-/

namespace LuaTypes

inductive Json
  | null
  | bool (b : Bool)
  /-- A number written as an integer that fits in 64 bits. -/
  | int (i : Int)
  /-- Any other number: the mantissa times ten to the exponent. -/
  | real (mantissa exponent : Int)
  | str (s : String)
  | arr (items : List Json)
  | obj (members : List (String × Json))

instance : Inhabited Json := ⟨.null⟩

namespace Json

/-- The values given for a key, in order. -/
def valuesOf (key : String) (members : List (String × Json)) : List Json :=
  (members.filter (·.1 == key)).map (·.2)

/-- The first value given for a key of an object. -/
def get? (key : String) : Json → Option Json
  | .obj members => (valuesOf key members).head?
  | _ => none

def str? : Json → Option String
  | .str s => some s
  | _ => none

def bool? : Json → Option Bool
  | .bool b => some b
  | _ => none

def items? : Json → Option (List Json)
  | .arr items => some items
  | _ => none

/-- An integer below a bound. -/
def below? (bound : Nat) : Json → Option Nat
  | .int (.ofNat n) => if n < bound then some n else none
  | _ => none

end Json

end LuaTypes
