import LuaTypes.Text.Combining
import LuaTypes.Text.Printable

/-!
Quoted texts. Quotes, backslashes and characters that cannot be shown are escaped: line feed,
carriage return, tabulator and NUL by a letter, others by their code point in hexadecimal.
-/

namespace LuaTypes.Text

def hexText (n : Nat) : String := String.ofList (Nat.toDigits 16 n)

/-- How a character stands between quotes. -/
def escapeChar (c : Char) : String :=
  match c with
  | '"' => "\\\""
  | '\\' => "\\\\"
  | '\n' => "\\n"
  | '\r' => "\\r"
  | '\t' => "\\t"
  | '\x00' => "\\0"
  | c =>
    if isPrintable c && !isCombining c then c.toString
    else "\\u\x7b" ++ hexText c.toNat ++ "\x7d"

def quoted (s : String) : String :=
  "\"" ++ String.join (s.toList.map escapeChar) ++ "\""

end LuaTypes.Text
