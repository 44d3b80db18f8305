import LuaTypes.Json.Reader
import LuaTypes.Json.Record

/-!
Settings of the inference, read from a JSON record.
-/

namespace LuaTypes

structure Settings where
  /-- Functions whose call stands for what a file returns. -/
  requireLike : List String := ["require"]
  /-- Methods whose call also gives the type that they are called on. -/
  constructors : List String := ["new", "get"]
  /-- A global is also the class of its name. -/
  globalsAreTypes : Bool := true

/-- Why settings cannot be had. -/
inductive SettingsError
  /-- The text is no settings record. -/
  | malformed
  /-- The file is missing or holds no text. -/
  | unreadable (path : String)
  /-- The text of the file is no settings record. -/
  | malformedFile (path : String)

/-- The messages of an error, outermost first. -/
def SettingsError.messages : SettingsError → List String
  | .malformed => ["failed to parse inference settings"]
  | .unreadable path => ["failed to read settings file " ++ path]
  | .malformedFile path => ["in " ++ path, "failed to parse inference settings"]

namespace Settings

def isRequireLike (s : Settings) (name : String) : Bool := s.requireLike.contains name

def isConstructor (s : Settings) (name : String) : Bool := s.constructors.contains name

def withRequireLike (s : Settings) (name : String) : Settings :=
  { s with requireLike := name :: s.requireLike }

def withConstructor (s : Settings) (name : String) : Settings :=
  { s with constructors := name :: s.constructors }

def keys : List String :=
  ["requireLikeFunctions", "constructorNames", "recognizeGlobalNameAsType"]

/-- Fields that are missing take their defaults. -/
def ofJson? (j : Json) : Option Settings := do
  let defaults : Settings := {}
  match ← j.record? keys with
  | [requireLike, constructors, globalsAreTypes] =>
    return {
      requireLike := ←
        Json.orDefault defaults.requireLike (Json.list? Json.str?) requireLike
      constructors := ←
        Json.orDefault defaults.constructors (Json.list? Json.str?) constructors
      globalsAreTypes := ←
        Json.orDefault defaults.globalsAreTypes Json.bool? globalsAreTypes }
  | _ => none

def parse (text : String) : Except SettingsError Settings :=
  match Json.parseRecord? keys text >>= ofJson? with
  | some s => .ok s
  | none => .error .malformed

/-- Settings from the bytes of a file, none if there is no such file. -/
def ofFile (path : String) (bytes? : Option ByteArray) : Except SettingsError Settings :=
  match bytes? >>= String.fromUTF8? with
  | none => .error (.unreadable path)
  | some text =>
    match parse text with
    | .ok s => .ok s
    | .error _ => .error (.malformedFile path)

end Settings

end LuaTypes
