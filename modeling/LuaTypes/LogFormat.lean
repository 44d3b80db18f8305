/-!
Formats of the log.
-/

namespace LuaTypes

inductive LogFormat
  | text | tree | json
  deriving DecidableEq

namespace LogFormat

/-- The format of a name, in any mix of ASCII cases; any other name means plain text. -/
def ofName (name : String) : LogFormat :=
  let lower := name.map Char.toLower
  if lower = "tree" then .tree else if lower = "json" then .json else .text

def name : LogFormat → String
  | .text => "Text"
  | .tree => "Tree"
  | .json => "Json"

end LogFormat

end LuaTypes
