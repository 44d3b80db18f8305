import LuaTypes.Proofs.MapKeys
import LuaTypes.Proofs.Room

/-!
Evidence about type parameters. Reading an actual type beside its formal type comes to some class
nodes of the formal type, each with an actual type beside it. What is read depends on the two types
alone, and what is bound afterwards is what was bound before, joined with what was read.
-/

namespace LuaTypes

namespace Unifier

/-! What is read. -/

/-- The names of the class nodes among the parts of a formal type, each with the actual type that
stands beside it. -/
def partEvidence (evidence : Ty → Ty → List (String × Ty)) (actual formal : Ty) :
    List (String × Ty) :=
  match formal with
  | .cls c => [(c.name, actual)]
  | .union members => members.flatMap (evidence actual)
  | .array formalElement =>
    actual.each.flatMap fun
      | .array element => evidence element formalElement
      | _ => []
  | .generic formalBase formalArgs =>
    actual.each.flatMap fun
      | .generic base args =>
        evidence base formalBase
          ++ args.zipIdx.flatMap fun (arg, i) => evidence arg (typeArg formalArgs i)
      | _ => []
  | .func formalMain _ =>
    actual.each.flatMap fun
      | .func main _ => evidence main.ret formalMain.ret
      | _ => []
  | _ => []

/-- The names of the class nodes in a formal type, `room` levels deep at most, each with the actual
type that stands beside it. -/
def evidence (room : Nat) (actual formal : Ty) : List (String × Ty) :=
  match room with
  | 0 => []
  | room + 1 => if actual.isInvalid then [] else partEvidence (evidence room) actual formal

/-- The types that stand beside a name. -/
def about (name : String) (found : List (String × Ty)) : List Ty :=
  found.filterMap fun e => if e.1 = name then some e.2 else none

/-- Joins what was read with what is bound. -/
def absorb (b : Bindings) (found : List (String × Ty)) : Bindings :=
  found.foldl (fun b e => b.modify e.1 (·.join e.2)) b

theorem get?_absorb (b : Bindings) (found : List (String × Ty)) (name : String) :
    (absorb b found).get? name = (b.get? name).map ((about name found).foldl Ty.join) := by
  induction found generalizing b with
  | nil => simp [absorb, about]
  | cons e found ih =>
    change (absorb (b.modify e.1 (·.join e.2)) found).get? name = _
    rw [ih, OrderedMap.get?_modify]
    by_cases hname : name = e.1
    · rw [if_pos hname, Option.map_map, about, about, List.filterMap_cons, if_pos hname.symm]
      rfl
    · rw [if_neg hname, about, about, List.filterMap_cons, if_neg (Ne.symm hname)]

theorem distinct_absorb {b : Bindings} (h : b.Distinct) (found : List (String × Ty)) :
    (absorb b found).Distinct :=
  List.foldlRecOn (motive := (OrderedMap.Distinct ·)) found _ h fun _ h e _ => h.modify e.1 _

/-! Reading. -/

/-- With so many levels of nesting left, the computation joins evidence with what is bound, and ends
at the level at which it began. -/
def Reads (room : Nat) (found : List (String × Ty)) (x : StateM Unifier Unit) : Prop :=
  ∀ u : Unifier, u.depth.depth + room = u.depth.maxDepth → ∃ hitLimit,
    x u = ((), { bindings := absorb u.bindings found, depth := { u.depth with hitLimit } })

namespace Reads

variable {room : Nat} {found found' : List (String × Ty)} {x y : StateM Unifier Unit}

theorem pure : Reads room [] (Pure.pure ()) := fun u _ => ⟨u.depth.hitLimit, rfl⟩

theorem bind (hx : Reads room found x) (hy : Reads room found' y) :
    Reads room (found ++ found') (x >>= fun _ => y) := by
  intro u hroom
  obtain ⟨hitLimit, hx⟩ := hx u hroom
  obtain ⟨hitLimit', hy⟩ :=
    hy { bindings := absorb u.bindings found, depth := { u.depth with hitLimit } } hroom
  refine ⟨hitLimit', ?_⟩
  change y (x u).2 = _
  rw [hx, hy, absorb, absorb, absorb, List.foldl_append]

theorem forM {α : Type} (f : α → StateM Unifier Unit) (read : α → List (String × Ty))
    (items : List α) (h : ∀ item ∈ items, Reads room (read item) (f item)) :
    Reads room (items.flatMap read) (items.forM f) := by
  induction items with
  | nil => exact pure
  | cons item items ih =>
    rw [List.flatMap_cons]
    exact (h item List.mem_cons_self).bind (ih fun other hother =>
      h other (List.mem_cons_of_mem _ hother))

/-- The members of an actual type are read one after another. -/
theorem each {f : Ty → StateM Unifier Unit} {read : Ty → List (String × Ty)} (actual : Ty)
    (h : ∀ member, Reads room (read member) (f member)) :
    Reads room (actual.each.flatMap read) (actual.each.forM f) :=
  forM f read actual.each fun member _ => h member

end Reads

theorem enter_of_le {u : Unifier} (h : u.depth.maxDepth ≤ u.depth.depth) :
    enter u = (false, { u with depth := { u.depth with hitLimit := true } }) := by
  have henter : u.depth.enter = (false, { u.depth with hitLimit := true }) := if_pos h
  change (u.depth.enter.1, { u with depth := u.depth.enter.2 }) = _
  rw [henter]

theorem enter_of_lt {u : Unifier} (h : u.depth.depth < u.depth.maxDepth) :
    enter u = (true, { u with depth := { u.depth with depth := u.depth.depth + 1 } }) := by
  have henter : u.depth.enter = (true, { u.depth with depth := u.depth.depth + 1 }) :=
    if_neg (Nat.not_le.mpr h)
  change (u.depth.enter.1, { u with depth := u.depth.enter.2 }) = _
  rw [henter]

theorem reads_parts {room : Nat} {unify : Ty → Ty → StateM Unifier Unit}
    {evidence : Ty → Ty → List (String × Ty)}
    (h : ∀ actual formal, Reads room (evidence actual formal) (unify actual formal))
    (actual formal : Ty) :
    Reads room (partEvidence evidence actual formal) (unifyParts unify actual formal) := by
  cases formal with
  | cls c => exact fun u _ => ⟨u.depth.hitLimit, rfl⟩
  | union members => exact .forM _ _ members fun member _ => h actual member
  | array formalElement =>
    refine .each actual fun member => ?_
    cases member with
    | array element => exact h element formalElement
    | _ => exact .pure
  | generic formalBase formalArgs =>
    refine .each actual fun member => ?_
    cases member with
    | generic base args =>
      exact (h base formalBase).bind (.forM _ _ args.zipIdx fun arg _ => h arg.1 _)
    | _ => exact .pure
  | func formalMain formalOverloads =>
    refine .each actual fun member => ?_
    cases member with
    | func main overloads => exact h main.ret formalMain.ret
    | _ => exact .pure
  | _ => exact .pure

/-- The counter lets a walk nest as deep as there is room. -/
theorem reads_unifyWithin (room : Nat) (actual formal : Ty) :
    Reads room (evidence room actual formal) (unifyWithin (room + 1) actual formal) := by
  induction room generalizing actual formal with
  | zero =>
    intro u hroom
    have hfull : u.depth.maxDepth ≤ u.depth.depth := by omega
    rw [unifyWithin_succ, enter_of_le hfull]
    split
    · exact ⟨u.depth.hitLimit, rfl⟩
    · exact ⟨true, rfl⟩
  | succ room ih =>
    intro u hroom
    have hspare : u.depth.depth < u.depth.maxDepth := by omega
    rw [unifyWithin_succ, enter_of_lt hspare, evidence]
    split
    · exact ⟨u.depth.hitLimit, rfl⟩
    · obtain ⟨hitLimit, hparts⟩ := reads_parts ih actual formal
        { u with depth := { u.depth with depth := u.depth.depth + 1 } }
        ((Nat.succ_add_eq_add_succ _ _).trans hroom)
      refine ⟨hitLimit, ?_⟩
      rw [if_pos rfl, hparts]
      rfl

/-- Reading an actual type beside its formal type from the top. -/
theorem reads_unify (actual formal : Ty) :
    Reads maxSubstDepth (evidence maxSubstDepth actual formal) (unify actual formal) :=
  reads_unifyWithin maxSubstDepth actual formal

end Unifier

end LuaTypes
