import LuaTypes.Json.Basic

/-!
Writing JSON without blanks. Quotes, backslashes and control characters are escaped; every other
character stands for itself.
-/

namespace LuaTypes.Json

def hexDigit (n : Nat) : Char :=
  if n < 10 then Char.ofNat ('0'.toNat + n) else Char.ofNat ('a'.toNat + (n - 10))

/-- How a character stands in a text. -/
def escapeChar (c : Char) : List Char :=
  match c with
  | '"' => ['\\', '"']
  | '\\' => ['\\', '\\']
  | '\x08' => ['\\', 'b']
  | '\x0c' => ['\\', 'f']
  | '\n' => ['\\', 'n']
  | '\r' => ['\\', 'r']
  | '\t' => ['\\', 't']
  | c =>
    if c.toNat < 0x20 then
      ['\\', 'u', '0', '0', hexDigit (c.toNat / 16), hexDigit (c.toNat % 16)]
    else [c]

def quote (s : String) : String :=
  "\"" ++ String.ofList (s.toList.flatMap escapeChar) ++ "\""

mutual

def render : Json → String
  | .null => "null"
  | .bool b => if b then "true" else "false"
  | .int i => toString i
  | .real m e => toString m ++ "e" ++ toString e
  | .str s => quote s
  | .arr items => "[" ++ ",".intercalate (renderItems items) ++ "]"
  | .obj members => "\x7b" ++ ",".intercalate (renderMembers members) ++ "\x7d"
termination_by structural j => j

def renderItems : List Json → List String
  | [] => []
  | j :: rest => j.render :: renderItems rest
termination_by structural items => items

def renderMembers : List (String × Json) → List String
  | [] => []
  | (key, j) :: rest => (quote key ++ ":" ++ j.render) :: renderMembers rest
termination_by structural members => members

end

end LuaTypes.Json
