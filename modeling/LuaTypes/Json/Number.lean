import LuaTypes.Json.Basic

/-!
The text of JSON numbers, and which numbers are too large for a double.

A number written with more digits than fit in 64 bits is cut to its leading digits first. It is too
large if rounding those digits to a double, and then their product with the power of ten, leaves the
range of doubles.
-/

namespace LuaTypes.Json

/-- The characters that a number is made of. -/
def isNumberChar (c : Char) : Bool :=
  c.isDigit || c == '-' || c == '+' || c == '.' || c == 'e' || c == 'E'

/-- A number as written: the digits before and after the point, and the exponent. -/
structure NumberText where
  negative : Bool
  whole : List Char
  /-- None where there is no point. -/
  fraction? : Option (List Char)
  exponent? : Option Int

def digitValue (c : Char) : Nat := c.toNat - '0'.toNat

def digitsValue (digits : List Char) : Nat := digits.foldl (fun n c => 10 * n + digitValue c) 0

/-- Digits that are all there is. -/
def allDigits (cs : List Char) : Option (List Char) :=
  if !cs.isEmpty && cs.all Char.isDigit then some cs else none

/-- The exponent after its letter: a sign if any, and digits. -/
def exponentOf : List Char → Option Int
  | '+' :: cs => (allDigits cs).map fun ds => (digitsValue ds : Int)
  | '-' :: cs => (allDigits cs).map fun ds => -(digitsValue ds : Int)
  | cs => (allDigits cs).map fun ds => (digitsValue ds : Int)

/-- Digits before the point: one, or several that do not begin with zero. -/
def wholeOf (cs : List Char) : Option (List Char) := do
  let ds ← allDigits cs
  if ds.length = 1 || ds.head? != some '0' then return ds else none

namespace NumberText

/-- Splits off the sign, the exponent and the fraction, in this order. -/
def ofChars? (cs : List Char) : Option NumberText := do
  let (negative, cs) := match cs with
    | '-' :: cs => (true, cs)
    | cs => (false, cs)
  let isMark := fun c : Char => c == 'e' || c == 'E'
  let (mantissa, exponent) := (cs.takeWhile (!isMark ·), (cs.dropWhile (!isMark ·)).tail?)
  let exponent? ← match exponent with
    | none => some none
    | some cs => some <$> exponentOf cs
  let fraction? ← match (mantissa.dropWhile (· != '.')).tail? with
    | none => some none
    | some cs => some <$> allDigits cs
  let whole ← wholeOf (mantissa.takeWhile (· != '.'))
  return { negative, whole, fraction?, exponent? }

def isInteger (n : NumberText) : Bool := n.fraction?.isNone && n.exponent?.isNone

/-- How many values 64 bits have. -/
def wordValues : Nat := 0x10000000000000000

/-- The integer as written, if it fits: negative zero does not. -/
def integer? (n : NumberText) : Option Int :=
  let v := digitsValue n.whole
  if !n.isInteger then none
  else if n.negative then if 0 < v && 2 * v ≤ wordValues then some (-(v : Int)) else none
  else if v < wordValues then some v else none

/-- The leading digits as far as they fit in 64 bits, with the digits left over. -/
def takeFitting : Nat → List Char → Nat × List Char
  | v, [] => (v, [])
  | v, c :: cs =>
    let w := 10 * v + digitValue c
    if w < wordValues then takeFitting w cs else (v, c :: cs)

/-- The leading digits and the power of ten that they are to be multiplied by. -/
def leading (n : NumberText) : Nat × Int :=
  let (v, cut) := takeFitting 0 n.whole
  let fraction := n.fraction?.getD []
  let (w, dropped) := takeFitting v fraction
  (w, cut.length - (fraction.length - dropped.length : Nat) + n.exponent?.getD 0)

/-- The nearest integer with at most 53 significant bits, ties to even. -/
def roundTo53 (n : Nat) : Nat :=
  let shift := n.log2 + 1 - 53
  let q := n >>> shift
  let r := n - (q <<< shift)
  let half := (1 <<< shift) / 2
  if shift = 0 then n
  else if half < r || (r = half && q % 2 = 1) then (q + 1) <<< shift
  else q <<< shift

/-- The first integer that rounds beyond the largest double. -/
def doubleLimit : Nat := 1 <<< 1024 - 1 <<< 970

def isTooLarge (n : NumberText) : Bool :=
  let (v, e) := n.leading
  if v = 0 || e ≤ 0 then false
  else if 308 < e then true
  else doubleLimit ≤ roundTo53 v * roundTo53 (Nat.pow 10 e.toNat)

/-- The mantissa and the exponent, with every digit counted. -/
def parts (n : NumberText) : Int × Int :=
  let fraction := n.fraction?.getD []
  let v : Int := digitsValue (n.whole ++ fraction)
  (if n.negative then -v else v, n.exponent?.getD 0 - fraction.length)

end NumberText

end LuaTypes.Json
