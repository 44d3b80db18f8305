import LuaTypes.Json.Number

/-!
The tokens of a JSON text. Texts with half a surrogate pair and numbers beyond the range of doubles
have tokens of their own: they are well formed, but their value cannot be read.
-/

namespace LuaTypes.Json

inductive Token
  | openItems | closeItems | openMembers | closeMembers | comma | colon
  | null
  | bool (b : Bool)
  | int (i : Int)
  | real (mantissa exponent : Int)
  | text (s : String)
  /-- A text that holds half a surrogate pair. -/
  | brokenText
  /-- A number beyond the range of doubles. -/
  | hugeNumber

namespace Token

def isBlank (c : Char) : Bool := c == ' ' || c == '\t' || c == '\n' || c == '\r'

def hexValue? (c : Char) : Option Nat :=
  if c.isDigit then some (c.toNat - '0'.toNat)
  else if 'a' ≤ c && c ≤ 'f' then some (c.toNat - 'a'.toNat + 10)
  else if 'A' ≤ c && c ≤ 'F' then some (c.toNat - 'A'.toNat + 10)
  else none

def hex4? (a b c d : Char) : Option Nat := do
  return (((← hexValue? a) * 16 + (← hexValue? b)) * 16 + (← hexValue? c)) * 16 + (← hexValue? d)

/-- The first half of a surrogate pair. -/
def isHigh (u : Nat) : Bool := 0xD800 ≤ u && u < 0xDC00

/-- The second half of a surrogate pair. -/
def isLow (u : Nat) : Bool := 0xDC00 ≤ u && u < 0xE000

def ofPair (high low : Nat) : Char :=
  Char.ofNat (0x10000 + (high - 0xD800) * 0x400 + (low - 0xDC00))

/-- What a one-letter escape stands for. -/
def unescape? : Char → Option Char
  | '"' => some '"'
  | '\\' => some '\\'
  | '/' => some '/'
  | 'b' => some '\x08'
  | 'f' => some '\x0c'
  | 'n' => some '\n'
  | 'r' => some '\r'
  | 't' => some '\t'
  | _ => none

/-- The low half that must follow a high one, with the rest. -/
def lowHalf? : List Char → Option (Nat × List Char)
  | '\\' :: 'u' :: a :: b :: c :: d :: rest =>
    match hex4? a b c d with
    | some u => if isLow u then some (u, rest) else none
    | none => none
  | _ => none

theorem length_of_lowHalf? {cs rest : List Char} {u : Nat} (h : lowHalf? cs = some (u, rest)) :
    rest.length < cs.length := by
  unfold lowHalf? at h
  split at h
  · split at h
    · split at h
      · simp only [Option.some.injEq, Prod.mk.injEq] at h
        simp only [← h.2, List.length_cons]
        omega
      · cases h
    · cases h
  · cases h

/-- The text up to its closing quote, and the rest. `done` holds the characters so far, last first,
and is none once half a surrogate pair was met. -/
def textFrom (done : Option (List Char)) (cs : List Char) : Option (Token × List Char) :=
  match cs with
  | [] => none
  | '"' :: rest => some (done.elim .brokenText fun cs => .text (String.ofList cs.reverse), rest)
  | '\\' :: 'u' :: a :: b :: c :: d :: rest =>
    match hex4? a b c d with
    | none => none
    | some u =>
      if isHigh u then
        match h : lowHalf? rest with
        | some (low, rest') =>
          have := length_of_lowHalf? h
          textFrom (done.map (ofPair u low :: ·)) rest'
        | none => textFrom none rest
      else if isLow u then textFrom none rest
      else textFrom (done.map (Char.ofNat u :: ·)) rest
  | '\\' :: c :: rest =>
    match unescape? c with
    | some c => textFrom (done.map (c :: ·)) rest
    | none => none
  | c :: rest => if c.toNat < 0x20 then none else textFrom (done.map (c :: ·)) rest
termination_by cs.length

theorem length_of_textFrom {done : Option (List Char)} {cs rest : List Char} {t : Token}
    (h : textFrom done cs = some (t, rest)) : rest.length < cs.length := by
  fun_induction textFrom done cs <;> simp_all <;> omega

/-- The token of a number. -/
def ofNumber? (cs : List Char) : Option Token := do
  let n ← NumberText.ofChars? cs
  if n.isTooLarge then return .hugeNumber
  match n.integer? with
  | some i => return .int i
  | none => return .real n.parts.1 n.parts.2

/-- The tokens of a text, none if some part of it is no token. -/
def list? (cs : List Char) : Option (List Token) :=
  match cs with
  | [] => some []
  | '[' :: cs => (list? cs).map (.openItems :: ·)
  | ']' :: cs => (list? cs).map (.closeItems :: ·)
  | '\x7b' :: cs => (list? cs).map (.openMembers :: ·)
  | '\x7d' :: cs => (list? cs).map (.closeMembers :: ·)
  | ',' :: cs => (list? cs).map (.comma :: ·)
  | ':' :: cs => (list? cs).map (.colon :: ·)
  | 'n' :: 'u' :: 'l' :: 'l' :: cs => (list? cs).map (.null :: ·)
  | 't' :: 'r' :: 'u' :: 'e' :: cs => (list? cs).map (.bool true :: ·)
  | 'f' :: 'a' :: 'l' :: 's' :: 'e' :: cs => (list? cs).map (.bool false :: ·)
  | '"' :: cs =>
    match h : textFrom (some []) cs with
    | some (t, rest) =>
      have := length_of_textFrom h
      (list? rest).map (t :: ·)
    | none => none
  | c :: cs =>
    if isBlank c then list? cs
    else if c == '-' || c.isDigit then
      have := (List.dropWhile_sublist isNumberChar (l := cs)).length_le
      match ofNumber? (c :: cs.takeWhile isNumberChar) with
      | some t => (list? (cs.dropWhile isNumberChar)).map (t :: ·)
      | none => none
    else none
termination_by cs.length

end Token

end LuaTypes.Json
