import LuaTypes.Program.Basic

/-!
Module paths. The path `a.b` means the file `a/b.lua`, else `a/b/init.lua`, wherever it lies.
-/

namespace LuaTypes.Program

variable (p : Program)

/-- The file is the one named, or lies by that name in some directory. -/
def endsIn (path name : List Char) : Bool :=
  path == name || (('/' :: name).isSuffixOf path)

/-- The first file of a name. -/
def fileNamed? (name : List Char) : Option FileId :=
  (p.files.toList.find? fun f => endsIn f.path.toList name).map (·.id)

/-- A path without the extension of its file. -/
def withoutExtension (path : List Char) : List Char :=
  let extension := ".lua".toList
  if extension.isSuffixOf path then path.take (path.length - extension.length) else path

/-- The file that a module path means. -/
def resolveModule? (path : String) : Option FileId :=
  let base := (withoutExtension path.toList).map fun c => if c = '.' then '/' else c
  p.fileNamed? (base ++ ".lua".toList) <|> p.fileNamed? (base ++ "/init.lua".toList)

end LuaTypes.Program
