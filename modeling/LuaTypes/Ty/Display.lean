import LuaTypes.Ty.Basic

/-!
The text of a type, in the notation of doc comments.
-/

namespace LuaTypes

/-- How an array element stands before its brackets: unions and functions are bracketed. -/
def arrayText (element : Ty) (text : String) : String :=
  match element with
  | .union _ | .func .. => "(" ++ text ++ ")[]"
  | _ => text ++ "[]"

/-- A return type that is unknown or void is left out. -/
def returnText (ret : Ty) (text : String) : String :=
  match ret with
  | .unknown | .prim .void => ""
  | _ => ": " ++ text

mutual

def Ty.text : Ty → String
  | .unknown => "any"
  | .invalid => "invalid"
  | .prim p => p.name
  | .cls c => c.text
  | .union members => "|".intercalate (Ty.texts members)
  | .generic base args => base.text ++ "<" ++ ", ".intercalate (Ty.texts args) ++ ">"
  | .func main _ => main.text
  | .array element => arrayText element element.text
  | .tuple items => "(" ++ ", ".intercalate (Ty.texts items) ++ ")"
termination_by structural ty => ty

def ClassTy.text : ClassTy → String
  | ⟨name, var, flags, .named, _⟩ => if flags.global || flags.anonymous then var else name
  | ⟨_, _, _, .literal .., _⟩ => tableWord
  | ⟨_, _, _, .docTable fields, _⟩ =>
    "\x7b " ++ ", ".intercalate (Field.texts fields) ++ " \x7d"
termination_by structural c => c

def Signature.text : Signature → String
  | ⟨_, params, none, ret, _⟩ =>
    "fun(" ++ ", ".intercalate (Field.texts params) ++ ")" ++ returnText ret ret.text
  | ⟨_, params, some vararg, ret, _⟩ =>
    "fun(" ++ ", ".intercalate (Field.texts params ++ ["...: " ++ vararg.text]) ++ ")"
      ++ returnText ret ret.text
termination_by structural sig => sig

def Ty.texts : List Ty → List String
  | [] => []
  | ty :: rest => ty.text :: Ty.texts rest
termination_by structural types => types

def Field.texts : List Field → List String
  | [] => []
  | ⟨name, ty⟩ :: rest => (name ++ ": " ++ ty.text) :: Field.texts rest
termination_by structural fields => fields

end

end LuaTypes
