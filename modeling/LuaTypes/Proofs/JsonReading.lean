import LuaTypes.Json.Reader
import LuaTypes.Proofs.JsonTokens

/-!
Reading what was written. A reader with room for all that a value opens at once comes from the
tokens of the value to the value.
-/

namespace LuaTypes.Json

mutual

/-- How many arrays and objects are open at once, where the most are. -/
def depth : Json → Nat
  | .null | .bool _ | .int _ | .real .. | .str _ => 0
  | .arr items => depthOfItems items + 1
  | .obj members => depthOfMembers members + 1
termination_by structural j => j

def depthOfItems : List Json → Nat
  | [] => 0
  | j :: rest => max j.depth (depthOfItems rest)
termination_by structural items => items

def depthOfMembers : List (String × Json) → Nat
  | [] => 0
  | (_, j) :: rest => max j.depth (depthOfMembers rest)
termination_by structural members => members

end

theorem depthOfItems_le_iff {items : List Json} {n : Nat} :
    depthOfItems items ≤ n ↔ ∀ j ∈ items, j.depth ≤ n := by
  induction items with
  | nil => simp [depthOfItems]
  | cons j rest ih => rw [depthOfItems, Nat.max_le, ih, List.forall_mem_cons]

theorem depthOfMembers_le_iff {members : List (String × Json)} {n : Nat} :
    depthOfMembers members ≤ n ↔ ∀ m ∈ members, m.2.depth ≤ n := by
  induction members with
  | nil => simp [depthOfMembers]
  | cons m rest ih => rw [depthOfMembers, Nat.max_le, ih, List.forall_mem_cons]

/-- A value does not begin with the end of an array, and if it begins with a text, that is all. -/
theorem tokens_cases (j : Json) : ∃ t us, j.tokens = t :: us ∧ t ≠ .closeItems ∧
    t ≠ .brokenText ∧ ∀ s, t = .text s → us = [] := by
  cases j with
  | arr items => cases items <;> exact ⟨_, _, rfl, nofun, nofun, nofun⟩
  | obj members => cases members <;> exact ⟨_, _, rfl, nofun, nofun, nofun⟩
  | str s => exact ⟨_, _, rfl, nofun, nofun, fun _ _ => rfl⟩
  | _ => exact ⟨_, _, rfl, nofun, nofun, nofun⟩

section

variable {r : Reading}

theorem mayOpen_of_lt {frames : List Frame} (h : frames.length < r.room) :
    r.mayOpen frames = true := by
  simp [Reading.mayOpen, h]

theorem readValue_openItems {frames : List Frame} (h : frames.length < r.room) (j : Json)
    (ts : List Token) : readValue r frames (.openItems :: (j.tokens ++ ts))
      = readValue r (.items [] :: frames) (j.tokens ++ ts) := by
  obtain ⟨t, us, hj, hclose, -, -⟩ := j.tokens_cases
  rw [readValue, if_pos (mayOpen_of_lt h)]
  intro ts' hts
  rw [hj, List.cons_append] at hts
  exact hclose (List.cons.inj hts).1

theorem readRest_comma (done : List Json) (outer : List Frame) (v j : Json) {ts : List Token}
    (hts : ∀ ts', ts ≠ .colon :: ts') :
    readRest r (.items done :: outer) v (.comma :: (j.tokens ++ ts))
      = readValue r (.items (v :: done) :: outer) (j.tokens ++ ts) := by
  obtain ⟨t, us, hj, -, hbroken, htext⟩ := j.tokens_cases
  rw [readRest]
  · intro key ts' heq
    rw [hj, List.cons_append] at heq
    obtain ⟨ht, hus⟩ := List.cons.inj heq
    rw [htext key ht] at hus
    exact hts ts' hus
  · intro ts' heq
    rw [hj, List.cons_append] at heq
    exact hbroken (List.cons.inj heq).1

/-- The tokens of a value are read as the value, if there is room for what it opens. -/
def Reads (r : Reading) (j : Json) : Prop :=
  ∀ frames ts, frames.length + j.depth ≤ r.room →
    readValue r frames (j.tokens ++ ts) = readRest r frames j ts

theorem Reads.within {j : Json} (h : Reads r j) {frames : List Frame}
    (hroom : frames.length + 1 + j.depth ≤ r.room) (frame : Frame) (ts : List Token) :
    readValue r (frame :: frames) (j.tokens ++ ts) = readRest r (frame :: frames) j ts :=
  h (frame :: frames) ts hroom

theorem readRest_moreItems {frames : List Frame} (ts : List Token) (rest done : List Json)
    (v : Json) (h : ∀ j ∈ rest, Reads r j)
    (hroom : ∀ j ∈ rest, frames.length + 1 + j.depth ≤ r.room) :
    readRest r (.items done :: frames) v (moreItems rest ++ .closeItems :: ts)
      = readRest r frames (.arr (done.reverse ++ v :: rest)) ts := by
  induction rest generalizing done v with
  | nil => rw [moreItems, List.nil_append, readRest, List.reverse_cons]
  | cons j rest ih =>
    obtain ⟨hj, hrest⟩ := List.forall_mem_cons.mp h
    obtain ⟨hroomj, hroom⟩ := List.forall_mem_cons.mp hroom
    have hcolon (ts' : List Token) : moreItems rest ++ .closeItems :: ts ≠ .colon :: ts' := by
      cases rest <;> simp [moreItems]
    rw [moreItems, List.cons_append, List.append_assoc, readRest_comma done frames v j hcolon,
      hj.within hroomj, ih (v :: done) j hrest hroom]
    simp

theorem readRest_moreMembers {frames : List Frame} (ts : List Token)
    (rest done : List (String × Json)) (key : String) (v : Json)
    (h : ∀ m ∈ rest, Reads r m.2) (hroom : ∀ m ∈ rest, frames.length + 1 + m.2.depth ≤ r.room) :
    readRest r (.members done key :: frames) v (moreMembers rest ++ .closeMembers :: ts)
      = readRest r frames (.obj (done.reverse ++ (key, v) :: rest)) ts := by
  induction rest generalizing done key v with
  | nil => rw [moreMembers, List.nil_append, readRest, List.reverse_cons]
  | cons m rest ih =>
    obtain ⟨key', j⟩ := m
    obtain ⟨hj, hrest⟩ := List.forall_mem_cons.mp h
    obtain ⟨hroomj, hroom⟩ := List.forall_mem_cons.mp hroom
    simp only [moreMembers, List.cons_append, List.append_assoc]
    rw [readRest, hj.within hroomj, ih ((key, v) :: done) key' j hrest hroom]
    simp

theorem Plain.reads {j : Json} (h : j.Plain) : Reads r j := by
  induction h with
  | null | bool | int | str =>
    intro frames ts _
    rw [tokens, List.singleton_append, readValue]
  | @arr items _ ih =>
    intro frames ts hroom
    rw [depth] at hroom
    have hlt : frames.length < r.room := by omega
    cases items with
    | nil =>
      rw [tokens, List.cons_append, List.singleton_append, readValue, if_pos (mayOpen_of_lt hlt)]
    | cons j rest =>
      obtain ⟨hj, hrest⟩ := List.forall_mem_cons.mp ih
      have hdepth := depthOfItems_le_iff.mp (le_refl (depthOfItems (j :: rest)))
      have hroomItems (i : Json) (hi : i ∈ j :: rest) : frames.length + 1 + i.depth ≤ r.room := by
        have hi := hdepth i hi
        omega
      obtain ⟨hroomj, hroomRest⟩ := List.forall_mem_cons.mp hroomItems
      simp only [tokens, List.cons_append, List.append_assoc]
      rw [readValue_openItems hlt, hj.within hroomj]
      exact readRest_moreItems ts rest [] j hrest hroomRest
  | @obj members _ ih =>
    intro frames ts hroom
    rw [depth] at hroom
    have hlt : frames.length < r.room := by omega
    cases members with
    | nil =>
      rw [tokens, List.cons_append, List.singleton_append, readValue, if_pos (mayOpen_of_lt hlt)]
    | cons m rest =>
      obtain ⟨key, j⟩ := m
      obtain ⟨hj, hrest⟩ := List.forall_mem_cons.mp ih
      have hdepth := depthOfMembers_le_iff.mp (le_refl (depthOfMembers ((key, j) :: rest)))
      have hroomMembers (m : String × Json) (hm : m ∈ (key, j) :: rest) :
          frames.length + 1 + m.2.depth ≤ r.room := by
        have hm := hdepth m hm
        omega
      obtain ⟨hroomj, hroomRest⟩ := List.forall_mem_cons.mp hroomMembers
      simp only [tokens, List.cons_append, List.append_assoc]
      rw [readValue, if_pos (mayOpen_of_lt hlt), hj.within hroomj]
      exact readRest_moreMembers ts rest [] key j hrest hroomRest

/-- A value is read back from the text that it was written as. -/
theorem Plain.parse?_render {j : Json} (h : j.Plain) (hroom : j.depth ≤ r.room) :
    parse? r j.render = some j := by
  have hread : readValue r [] (j.tokens ++ []) = readRest r [] j [] :=
    h.reads [] [] (by simpa using hroom)
  rw [List.append_nil, readRest] at hread
  simp [parse?, h.list?_render, hread]

end

end LuaTypes.Json
