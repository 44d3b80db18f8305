/-!
Names with a meaning of their own: the reserved words of the language, and the names given to the
classes that no declaration names (globals, table literals, inline doc tables, locals).
-/

namespace LuaTypes

/-- The implicit receiver of a colon method, and the doc name of the receiver's type. -/
def selfWord : String := "self"

/-- The global environment, which is also the class that holds every global. -/
def envWord : String := "_G"

def nilWord : String := "nil"

/-- The class that every class and table belongs to. -/
def tableWord : String := "table"

/-- The class that holds the methods of strings. -/
def stringWord : String := "string"

/-- The class that stores the fields of a global: a dollar sign keeps it apart from declared
classes, and the environment keeps its own name. -/
def globalClassName (var : String) : String :=
  if var = envWord then var else "$" ++ var

/-- The class of the table literal at an offset of a file. -/
def tableClassName (path : String) (offset : Nat) : String :=
  path ++ "@(" ++ toString offset ++ ")table"

/-- The class of the inline doc table at an offset of a file. -/
def docTableClassName (path : String) (offset : Nat) : String :=
  "10|" ++ path ++ "|" ++ toString offset

/-- The class of the local declared at an offset of a file. -/
def localClassName (path : String) (offset : Nat) : String :=
  toString offset ++ "@" ++ path

end LuaTypes
