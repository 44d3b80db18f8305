import LuaTypes.Proofs.Layouts

/-!
Untangled unions. A union is untangled if it can be laid out so that no two entries get in each
other's way. Its members may then be unfolded in any order.
-/

namespace LuaTypes

/-- What lies in a union once some classes are laid open, with the name of the class that put it
there. -/
inductive LaidOut (stands : ClassTy → Option Ty) (opened : ClassTy → Prop) (members : List Ty) :
    Option String → Ty → Prop
  | member {m : Ty} : m ∈ members → LaidOut stands opened members none m
  | target {source : Option String} {c : ClassTy} {target m : Ty} :
    LaidOut stands opened members source (.cls c) → opened c → stands c = some target →
    m ∈ target.each → LaidOut stands opened members (some c.name) m

/-- No two entries of the layout get in each other's way: classes of one name that are laid open
stand for the same, and where unfolding an entry on its own needs a name, no other entry has a use
for it. -/
structure Untangled (stands : ClassTy → Option Ty) (opened : ClassTy → Prop) (members : List Ty) :
    Prop where
  alike {source source' : Option String} {c d : ClassTy} :
    LaidOut stands opened members source (.cls c) →
    LaidOut stands opened members source' (.cls d) → opened c → opened d → c.name = d.name →
    stands c = stands d
  apart {source source' : Option String} {part part' : Ty} :
    LaidOut stands opened members source part → LaidOut stands opened members source' part' →
    (∀ c, part = .cls c → ¬opened c) → (∀ c, part' = .cls c → ¬opened c) →
    (source, part) ≠ (source', part') →
    ∀ name, Needs stands source part name → ¬Uses stands source' part' name
  aside {source source' : Option String} {part : Ty} {c : ClassTy} :
    LaidOut stands opened members source part → LaidOut stands opened members source' (.cls c) →
    (∀ c, part = .cls c → ¬opened c) → opened c → ¬Needs stands source part c.name ∧
      ((stands c).isSome = true → ¬Uses stands source part c.name)

section

variable {stands : ClassTy → Option Ty} {members : List Ty}

/-- A union is untangled if no two of its members share a name that one of them needs. -/
theorem Untangled.of_members
    (h : ∀ p ∈ members, ∀ q ∈ members, p ≠ q → ∀ name, Needs stands none p name →
      ¬Uses stands none q name) : Untangled stands (fun _ => False) members where
  alike _ _ hopened := hopened.elim
  apart {source source' p q} hp hq _ _ hdiffers name := by
    cases hp with
    | target _ hopened => exact hopened.elim
    | member hp =>
      cases hq with
      | target _ hopened => exact hopened.elim
      | member hq => exact h p hp q hq (fun heq => hdiffers (heq ▸ rfl)) name
  aside _ _ _ hopened := hopened.elim

/-- A union is untangled if there is no class within the parts that stand beside its classes, once
these are all laid open, and classes of one name stand for the same. -/
theorem Untangled.of_classes
    (h : ∀ source part, LaidOut stands (fun _ => True) members source part →
      (∃ c, part = .cls c) ∨ ∀ c, ¬part.Enters (.cls c))
    (halike : ∀ source source' c d, LaidOut stands (fun _ => True) members source (.cls c) →
      LaidOut stands (fun _ => True) members source' (.cls d) → c.name = d.name →
      stands c = stands d) : Untangled stands (fun _ => True) members := by
  have hnone {source : Option String} {part : Ty}
      (hpart : LaidOut stands (fun _ => True) members source part)
      (halone : ∀ c, part = .cls c → ¬True) (name : String) : ¬Uses stands source part name := by
    rintro ⟨-, c, hmeets, -⟩
    obtain ⟨d, hd⟩ := hmeets.exists_enters
    rcases h source part hpart with ⟨e, rfl⟩ | hno
    · exact halone e rfl trivial
    · exact hno d hd
  constructor
  case alike => exact fun hc hd _ _ hname => halike _ _ _ _ hc hd hname
  case apart => exact fun _ hq _ halone _ name _ => hnone hq halone name
  case aside =>
    exact fun hp _ halone _ => ⟨fun hneeds => hnone hp halone _ hneeds.uses,
      fun _ => hnone hp halone _⟩

end

/-- What a walk through the members of a union comes to, where some names are met before, with the
depth down to which it is unfolded. -/
inductive WalkedTo (stands : ClassTy → Option Ty) (opened : ClassTy → Prop) (met : List String)
    (depth : Nat) (members : List Ty) : Option String → Nat → Ty → Prop
  | member {m : Ty} : m ∈ members → WalkedTo stands opened met depth members none depth m
  | target {source : Option String} {n : Nat} {c : ClassTy} {target m : Ty} :
    WalkedTo stands opened met depth members source n (.cls c) → opened c → c.name ∉ met →
    stands c = some target → m ∈ target.each →
    WalkedTo stands opened met depth members (some c.name) (target.eachDepth maxSubstDepth) m

section

variable {stands : ClassTy → Option Ty} {opened : ClassTy → Prop} {met : List String}
  {depth : Nat} {members : List Ty}

theorem WalkedTo.laidOut {source : Option String} {n : Nat} {part : Ty}
    (h : WalkedTo stands opened met depth members source n part) :
    LaidOut stands opened members source part := by
  induction h with
  | member hm => exact .member hm
  | target _ hopened _ hstands hm ih => exact .target ih hopened hstands hm

theorem WalkedTo.positive (hdepth : 0 < depth) {source : Option String} {n : Nat} {part : Ty}
    (h : WalkedTo stands opened met depth members source n part) : 0 < n := by
  induction h with
  | member => exact hdepth
  | @target _ _ _ target =>
    cases target with
    | union members => exact (show 0 < maxSubstDepth - 1 by decide)
    | _ => exact (show 0 < maxSubstDepth by decide)

end

namespace Untangled

variable {A : Aliases} {opened : ClassTy → Prop} {members : List Ty}

/-- The layout of an untangled union. -/
def layout (h : Untangled A.stands opened members) (hmembers : ∀ m ∈ members, m.WellFormed)
    (met : List String) {depth : Nat} (hdepth : 0 < depth) : Layout A where
  met
  opened
  Laid := WalkedTo A.stands opened met depth members
  positive hpart := hpart.positive hdepth
  wellFormed hpart := by
    induction hpart with
    | member hm => exact hmembers _ hm
    | target _ _ _ hstands hm => exact (A.target hstands).each _ hm
  names := by
    obtain ⟨names, hnames⟩ := A.names
    refine ⟨Ty.allClassNames members ++ names, fun {source n c} hc _ => ?_⟩
    have hself := Ty.name_mem_classNames c
    cases hc with
    | member hm => exact List.mem_append_left _ (Ty.classNames_of_mem hm hself)
    | target _ _ _ hstands hm =>
      exact List.mem_append_right _ (hnames hstands (Ty.classNames_each hm hself))
  spread hc hopened hnew hstands _ hm := .target hc hopened hnew hstands hm
  alike hc hd := h.alike hc.laidOut hd.laidOut
  apart hpart hpart' := h.apart hpart.laidOut hpart'.laidOut
  aside hpart hc := h.aside hpart.laidOut hc.laidOut

variable (h : Untangled A.stands opened members) (hmembers : ∀ m ∈ members, m.WellFormed)

include h hmembers

/-- What the members have met and what they show does not depend on the order in which they are
unfolded. -/
theorem unfold_members {parts : List Ty} (hparts : ∀ m, m ∈ parts ↔ m ∈ members)
    (hnodup : parts.Nodup) (met : List String) {depth : Nat} (hdepth : 0 < depth) :
    (∀ name, name ∈ (parts.mapM (A.unfold depth) met).2 ↔
      (h.layout hmembers met hdepth).Met name) ∧
    ∀ m : Ty, m.WellFormed → ((∃ ty ∈ (parts.mapM (A.unfold depth) met).1, ty.Shows m) ↔
      (h.layout hmembers met hdepth).Shows m) := by
  have hbefore : (h.layout hmembers met hdepth).Before met none depth parts :=
    { laid := fun m hm => WalkedTo.member ((hparts m).mp hm)
      nodup := hnodup
      later := fun _ hname => hname
      put := nofun
      fresh := fun _ _ _ _ _ hmem => hmem }
  have hwalked := hbefore.walked
  refine hwalked.whole fun source n part hpart => ?_
  induction hpart with
  | member hm => exact hwalked.done _ ((hparts _).mpr hm)
  | target hc hopened hnew hstands hm ih =>
    exact hwalked.closed hc hopened (ih.opened rfl hopened).1 hnew hstands _ hm

end Untangled

end LuaTypes
