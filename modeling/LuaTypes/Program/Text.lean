import LuaTypes.Program.Basic
import LuaTypes.Text.Quoted

/-!
The text of nodes, spelled one way only, so that two expressions can be compared by their texts. A
statement has no text but its position.
-/

namespace LuaTypes.Program

variable (p : Program)

/-- The text of a node, where `room` levels are left; empty where there is no node. -/
def textWithin (room : Nat) (id : NodeId) : String :=
  match room with
  | 0 => ""
  | room + 1 =>
    let text := textWithin room
    let list := fun ids : List NodeId => ", ".intercalate (ids.map text)
    match p.node? id with
    | none => ""
    | some (.nameDef name) | some (.nameRef name) => name
    | some (.index object (.dot name)) => text object ++ "." ++ name
    | some (.index object (.colon name)) => text object ++ ":" ++ name
    | some (.index object (.bracket key)) => text object ++ "[" ++ text key ++ "]"
    | some (.call callee args) => text callee ++ "(" ++ list args ++ ")"
    | some (.unary op operand) => op.text ++ text operand
    | some (.binary op lhs rhs) => text lhs ++ " " ++ op.text ++ " " ++ text rhs
    | some (.literal .nil) => nilWord
    | some (.literal (.bool b)) => if b then "true" else "false"
    | some (.literal (.number spelling)) => spelling
    | some (.literal (.string value)) => Text.quoted value
    | some (.literal .vararg) => "..."
    | some (.table fields) => "\x7b" ++ list fields ++ "\x7d"
    | some (.tableField (.name name) value) => name ++ " = " ++ text value
    | some (.tableField (.expr key) value) => "[" ++ text key ++ "] = " ++ text value
    | some (.tableField .positional value) => text value
    | some (.closure body) =>
      let rest := if !body.vararg then "" else if body.params.isEmpty then "..." else ", ..."
      "function(" ++ list body.params ++ rest ++ ") end"
    | some (.paren expr) => "(" ++ text expr ++ ")"
    | some _ => "<stmt #" ++ toString id ++ ">"

/-- The text of a node. -/
def text (id : NodeId) : String := p.textWithin p.nodes.size id

/-- The text of an expression list. -/
def listText (ids : List NodeId) : String := ", ".intercalate (ids.map p.text)

end LuaTypes.Program
