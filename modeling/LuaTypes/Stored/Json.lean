import LuaTypes.Json.Reader
import LuaTypes.Json.Record
import LuaTypes.Json.Writer
import LuaTypes.Stored.Basic

/-!
Stored types as JSON. A type is a record with its kind under the key `kind`; fields that hold
nothing but their default are left out.
-/

namespace LuaTypes

/-- A member that is left out where there is nothing to say. -/
def memberUnless (absent : Bool) (key : String) (value : Json) : List (String × Json) :=
  if absent then [] else [(key, value)]

def namesJson (names : List String) : Json := .arr (names.map .str)

namespace ClassStub

def members (s : ClassStub) : List (String × Json) :=
  [("className", .str s.className)]
    ++ memberUnless s.generics.isEmpty "genericNames" (namesJson s.generics)
    ++ [("varName", .str s.varName)]
    ++ memberUnless s.supers.isEmpty "superClassNames" (namesJson s.supers)
    ++ memberUnless s.alias?.isNone "aliasName" (.str (s.alias?.getD ""))
    ++ [("flags", .int s.flags)]

def toJson (s : ClassStub) : Json := .obj s.members

def keys : List String :=
  ["className", "genericNames", "varName", "superClassNames", "aliasName", "flags"]

def ofJson? (j : Json) : Option ClassStub := do
  match ← j.record? keys with
  | [className, generics, varName, supers, otherName, flags] =>
    return {
      className := ← Json.required Json.str? className
      generics := ← Json.orDefault [] (Json.list? Json.str?) generics
      varName := ← Json.required Json.str? varName
      supers := ← Json.orDefault [] (Json.list? Json.str?) supers
      alias? := ← Json.optional Json.str? otherName
      flags := ← Json.orDefault 0 (Json.below? 256) flags }
  | _ => none

def render (s : ClassStub) : String := s.toJson.render

/-- Reads a stub from a text. Members that a stub does not have are skipped. -/
def parse? (text : String) : Option ClassStub := do ofJson? (← Json.parseRecord? keys text)

end ClassStub

def TypeParam.toJson (p : TypeParam) : Json :=
  .obj ([("name", .str p.name)] ++ memberUnless p.bound?.isNone "superClass" (.str (p.bound?.getD "")))

def TypeParam.ofJson? (j : Json) : Option TypeParam := do
  match ← j.record? ["name", "superClass"] with
  | [name, bound] => return ⟨← Json.required Json.str? name, ← Json.optional Json.str? bound⟩
  | _ => none

/-- The kinds of stored types, in their order. -/
def storedKinds : List String :=
  ["unknown", "invalid", "primitive", "class", "docTable", "union", "generic", "function", "array",
    "tuple"]

/-- A stored type is its kind followed by the fields of that kind. -/
def taggedJson (kind : String) (members : List (String × Json)) : Json :=
  .obj (("kind", .str kind) :: members)

mutual

def StoredTy.toJson : StoredTy → Json
  | .unknown => taggedJson "unknown" []
  | .invalid => taggedJson "invalid" []
  | .prim name => taggedJson "primitive" [("name", .str name)]
  | .cls stub => taggedJson "class" stub.members
  | .docTable name fields =>
    taggedJson "docTable" [("class_name", .str name), ("fields", .arr (StoredField.allToJson fields))]
  | .union members => taggedJson "union" [("members", .arr (StoredTy.allToJson members))]
  | .generic base args =>
    taggedJson "generic" [("base", base.toJson), ("args", .arr (StoredTy.allToJson args))]
  | .func main overloads =>
    taggedJson "function" (("main", main.toJson) ::
      memberUnless overloads.isEmpty "overloads" (.arr (StoredSignature.allToJson overloads)))
  | .array element => taggedJson "array" [("element", element.toJson)]
  | .tuple items => taggedJson "tuple" [("items", .arr (StoredTy.allToJson items))]
termination_by structural ty => ty

def StoredTy.allToJson : List StoredTy → List Json
  | [] => []
  | ty :: rest => ty.toJson :: StoredTy.allToJson rest
termination_by structural types => types

def StoredField.allToJson : List StoredField → List Json
  | [] => []
  | ⟨name, ty⟩ :: rest =>
    .obj [("name", .str name), ("ty", ty.toJson)] :: StoredField.allToJson rest
termination_by structural fields => fields

def StoredSignature.toJson : StoredSignature → Json
  | ⟨colon, params, none, ret, typeParams⟩ =>
    .obj ([("colonCall", .bool colon), ("params", .arr (StoredField.allToJson params)),
      ("ret", ret.toJson)]
      ++ memberUnless typeParams.isEmpty "typeParams" (.arr (typeParams.map TypeParam.toJson)))
  | ⟨colon, params, some vararg, ret, typeParams⟩ =>
    .obj ([("colonCall", .bool colon), ("params", .arr (StoredField.allToJson params)),
      ("vararg", vararg.toJson), ("ret", ret.toJson)]
      ++ memberUnless typeParams.isEmpty "typeParams" (.arr (typeParams.map TypeParam.toJson)))
termination_by structural sig => sig

def StoredSignature.allToJson : List StoredSignature → List Json
  | [] => []
  | sig :: rest => sig.toJson :: StoredSignature.allToJson rest
termination_by structural sigs => sigs

end

/-- The kind of a tagged value, and what is left of it. The kind is a member of an object, given
once, or the first item of an array. -/
def splitKind? : Json → Option (Json × Json)
  | .obj members =>
    match Json.valuesOf "kind" members with
    | [kind] => some (kind, .obj (members.filter (·.1 != "kind")))
    | _ => none
  | .arr (kind :: rest) => some (kind, .arr rest)
  | _ => none

/-- The name of a kind. Within another value a kind may also be given by its position among the
kinds. -/
def kindName? (nested : Bool) : Json → Option String
  | .str name => some name
  | .int (.ofNat i) => if nested then storedKinds[i]? else none
  | _ => none

def StoredField.ofJson? (read : Json → Option StoredTy) (j : Json) : Option StoredField := do
  match ← j.record? ["name", "ty"] with
  | [name, ty] => return ⟨← Json.required Json.str? name, ← Json.required read ty⟩
  | _ => none

def StoredSignature.ofJson? (read : Json → Option StoredTy) (j : Json) :
    Option StoredSignature := do
  match ← j.record? ["colonCall", "params", "vararg", "ret", "typeParams"] with
  | [colon, params, vararg, ret, typeParams] =>
    return {
      colon := ← Json.orDefault false Json.bool? colon
      params := ← Json.required (Json.list? (StoredField.ofJson? read)) params
      vararg? := ← Json.optional read vararg
      ret := ← Json.required read ret
      typeParams := ← Json.orDefault [] (Json.list? TypeParam.ofJson?) typeParams }
  | _ => none

namespace StoredTy

/-- Reads the fields of a kind of type, where `read` reads the types within it. -/
def ofBody? (read : Json → Option StoredTy) (kind : String) (body : Json) : Option StoredTy := do
  match kind with
  | "unknown" => (body.record? []).map fun _ => .unknown
  | "invalid" => (body.record? []).map fun _ => .invalid
  | "primitive" =>
    match ← body.record? ["name"] with
    | [name] => return .prim (← Json.required Json.str? name)
    | _ => none
  | "class" => return .cls (← ClassStub.ofJson? body)
  | "docTable" =>
    match ← body.record? ["class_name", "fields"] with
    | [name, fields] =>
      return .docTable (← Json.required Json.str? name)
        (← Json.required (Json.list? (StoredField.ofJson? read)) fields)
    | _ => none
  | "union" =>
    match ← body.record? ["members"] with
    | [members] => return .union (← Json.required (Json.list? read) members)
    | _ => none
  | "generic" =>
    match ← body.record? ["base", "args"] with
    | [base, args] =>
      return .generic (← Json.required read base) (← Json.required (Json.list? read) args)
    | _ => none
  | "function" =>
    match ← body.record? ["main", "overloads"] with
    | [main, overloads] =>
      return .func (← Json.required (StoredSignature.ofJson? read) main)
        (← Json.orDefault [] (Json.list? (StoredSignature.ofJson? read)) overloads)
    | _ => none
  | "array" =>
    match ← body.record? ["element"] with
    | [element] => return .array (← Json.required read element)
    | _ => none
  | "tuple" =>
    match ← body.record? ["items"] with
    | [items] => return .tuple (← Json.required (Json.list? read) items)
    | _ => none
  | _ => none

/-- Reads a stored type that nests at most `room` deep. -/
def ofJson? (room : Nat) (nested : Bool) (j : Json) : Option StoredTy :=
  match room with
  | 0 => none
  | room + 1 => do
    let (kind, body) ← splitKind? j
    ofBody? (ofJson? room true) (← kindName? nested kind) body

def render (ty : StoredTy) : String := ty.toJson.render

/-- Reads a stored type from a text: every nested type opens an object or an array, so no type
nests deeper than the text may. -/
def parse? (text : String) : Option StoredTy := do
  ofJson? Json.maxOpen false (← Json.parseAll? text)

end StoredTy

end LuaTypes
