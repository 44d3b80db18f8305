import LuaTypes.Json.Token

/-!
Reading JSON. A value is read with care: no text with half a surrogate pair, no number beyond the
range of doubles, and no more than a given number of arrays and objects open at once. A member of
the outermost object that the caller does not keep is only skipped, which asks for none of these.
-/

namespace LuaTypes.Json

/-- An array or object begun: what it holds so far, last first, and the key that waits for its
value. -/
inductive Frame
  | items (done : List Json)
  | members (done : List (String × Json)) (key : String)

/-- What a reader asks of a text. -/
structure Reading where
  /-- Whether the outermost member of a key is kept. -/
  keeps : String → Bool
  /-- How many arrays and objects may be open at once. -/
  room : Nat

/-- Whether the next value is read with care: it is not within a skipped member. -/
def Reading.careful (r : Reading) (frames : List Frame) : Bool :=
  match frames.getLast? with
  | some (.members _ key) => r.keeps key
  | _ => true

def Reading.mayOpen (r : Reading) (frames : List Frame) : Bool :=
  !r.careful frames || frames.length < r.room

mutual

/-- Reads a value within the open frames, innermost first, and then all that follows it. -/
def readValue (r : Reading) (frames : List Frame) : List Token → Option Json
  | .null :: ts => readRest r frames .null ts
  | .bool b :: ts => readRest r frames (.bool b) ts
  | .int i :: ts => readRest r frames (.int i) ts
  | .real m e :: ts => readRest r frames (.real m e) ts
  | .text s :: ts => readRest r frames (.str s) ts
  | .brokenText :: ts => if r.careful frames then none else readRest r frames .null ts
  | .hugeNumber :: ts => if r.careful frames then none else readRest r frames .null ts
  | .openItems :: .closeItems :: ts =>
    if r.mayOpen frames then readRest r frames (.arr []) ts else none
  | .openItems :: ts => if r.mayOpen frames then readValue r (.items [] :: frames) ts else none
  | .openMembers :: .closeMembers :: ts =>
    if r.mayOpen frames then readRest r frames (.obj []) ts else none
  | .openMembers :: .text key :: .colon :: ts =>
    if r.mayOpen frames then readValue r (.members [] key :: frames) ts else none
  | .openMembers :: .brokenText :: .colon :: ts =>
    if r.careful frames then none else readValue r (.members [] "" :: frames) ts
  | _ => none
termination_by structural ts => ts

/-- Goes on after a value within the open frames. -/
def readRest (r : Reading) (frames : List Frame) (v : Json) : List Token → Option Json
  | [] =>
    match frames with
    | [] => some v
    | _ :: _ => none
  | .comma :: .text key :: .colon :: ts =>
    match frames with
    | .members done k :: outer => readValue r (.members ((k, v) :: done) key :: outer) ts
    | _ => none
  | .comma :: .brokenText :: .colon :: ts =>
    match frames with
    | .members done k :: outer =>
      if r.careful outer then none else readValue r (.members ((k, v) :: done) "" :: outer) ts
    | _ => none
  | .comma :: ts =>
    match frames with
    | .items done :: outer => readValue r (.items (v :: done) :: outer) ts
    | _ => none
  | .closeItems :: ts =>
    match frames with
    | .items done :: outer => readRest r outer (.arr (v :: done).reverse) ts
    | _ => none
  | .closeMembers :: ts =>
    match frames with
    | .members done k :: outer => readRest r outer (.obj ((k, v) :: done).reverse) ts
    | _ => none
  | _ => none
termination_by structural ts => ts

end

/-- The value of a text. -/
def parse? (r : Reading) (text : String) : Option Json := do
  readValue r [] (← Token.list? text.toList)

/-- Arrays and objects that may be open at once in a text that is kept. -/
def maxOpen : Nat := 127

/-- Reads the whole of a text with care. -/
def parseAll? (text : String) : Option Json := parse? ⟨fun _ => true, maxOpen⟩ text

/-- Reads a record, skipping the members that it does not have. -/
def parseRecord? (keys : List String) (text : String) : Option Json :=
  parse? ⟨fun key => keys.contains key, maxOpen⟩ text

end LuaTypes.Json
