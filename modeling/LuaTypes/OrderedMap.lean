/-!
Maps that remember in which order their keys were first added.
-/

namespace LuaTypes

/-- Keys with their values, oldest key first. -/
structure OrderedMap (α : Type) where
  entries : List (String × α) := []

namespace OrderedMap

variable {α : Type}

/-- Puts a value in: in place if the key is there, else at the end. -/
def insertInto (key : String) (value : α) : List (String × α) → List (String × α)
  | [] => [(key, value)]
  | (k, v) :: rest =>
    if k = key then (key, value) :: rest else (k, v) :: insertInto key value rest

def insert (m : OrderedMap α) (key : String) (value : α) : OrderedMap α :=
  ⟨insertInto key value m.entries⟩

def get? (m : OrderedMap α) (key : String) : Option α := m.entries.lookup key

def contains (m : OrderedMap α) (key : String) : Bool := (m.get? key).isSome

def size (m : OrderedMap α) : Nat := m.entries.length

def isEmpty (m : OrderedMap α) : Bool := m.entries.isEmpty

/-- Changes the value of a key, if it is there. -/
def modify (m : OrderedMap α) (key : String) (f : α → α) : OrderedMap α :=
  match m.get? key with
  | some v => m.insert key (f v)
  | none => m

/-- Keeps the entries whose value passes a test. -/
def filter (m : OrderedMap α) (p : α → Bool) : OrderedMap α :=
  ⟨m.entries.filter fun e => p e.2⟩

@[simp] theorem get?_insert (m : OrderedMap α) (key other : String) (value : α) :
    (m.insert key value).get? other = if other = key then some value else m.get? other := by
  obtain ⟨es⟩ := m
  simp only [insert, get?]
  induction es with
  | nil => simp only [insertInto, List.lookup_cons, List.lookup_nil]; split <;> simp_all
  | cons e es ih =>
    obtain ⟨k, v⟩ := e
    by_cases hk : k = key
    · subst hk
      simp only [insertInto, if_true, List.lookup_cons]
      split <;> simp_all
    · simp only [insertInto, hk, if_false, List.lookup_cons]
      split <;> simp_all

end OrderedMap

end LuaTypes
