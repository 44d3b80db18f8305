import LuaTypes.Json.Basic

/-!
Records in JSON. A record is an object with the fields of the record, each at most once and others
ignored, or an array of its fields in their order, of which the last may be missing.
-/

namespace LuaTypes.Json

/-- The value of a key, none where it is missing; a key given twice is refused. -/
def field? (members : List (String × Json)) (key : String) : Option (Option Json) :=
  match valuesOf key members with
  | [] => some none
  | [v] => some (some v)
  | _ => none

/-- The values of the fields of a record, none where a field is missing. -/
def record? (keys : List String) : Json → Option (List (Option Json))
  | .obj members => keys.mapM (field? members)
  | .arr items =>
    if items.length ≤ keys.length then
      some (items.map some ++ List.replicate (keys.length - items.length) none)
    else none
  | _ => none

/-- The items of an array, each read the same way. -/
def list? {α : Type} (read : Json → Option α) (j : Json) : Option (List α) := do
  (← j.items?).mapM read

/-- A field that must be there. -/
def required {α : Type} (read : Json → Option α) (j? : Option Json) : Option α := j? >>= read

/-- A field that stands for a default where it is missing. -/
def orDefault {α : Type} (default : α) (read : Json → Option α) (j? : Option Json) : Option α :=
  j?.elim (some default) read

/-- A field that may be missing or null. -/
def optional {α : Type} (read : Json → Option α) (j? : Option Json) : Option (Option α) :=
  match j? with
  | none | some .null => some none
  | some j => (read j).map some

end LuaTypes.Json
