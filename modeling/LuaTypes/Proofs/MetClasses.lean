import LuaTypes.Proofs.Unfolding

/-!
The classes that an unfolding meets. What an unfolding does depends on the names met before only
where a name is that of a class it meets which stands for an alias, and it adds no names but those
of classes it meets.
-/

namespace LuaTypes

/-- The first type holds the second, outside of generics. -/
inductive Ty.Enters : Ty → Ty → Prop
  | refl (ty : Ty) : ty.Enters ty
  | part {ty part inner : Ty} : part ∈ ty.walked false → part.Enters inner → ty.Enters inner

namespace Ty

theorem enters_iff {ty inner : Ty} :
    ty.Enters inner ↔ inner = ty ∨ ∃ part ∈ ty.walked false, part.Enters inner := by
  constructor
  · intro h
    cases h with
    | refl => exact .inl rfl
    | part hpart h => exact .inr ⟨_, hpart, h⟩
  · rintro (rfl | ⟨part, hpart, h⟩)
    · exact .refl _
    · exact .part hpart h

@[simp] theorem prim_enters {p : Prim} {inner : Ty} : (prim p).Enters inner ↔ inner = .prim p := by
  rw [enters_iff]
  simp [walked]

@[simp] theorem cls_enters {c : ClassTy} {inner : Ty} : (cls c).Enters inner ↔ inner = .cls c := by
  rw [enters_iff]
  simp [walked]

@[simp] theorem union_enters {members : List Ty} {inner : Ty} :
    (union members).Enters inner ↔ inner = .union members ∨ ∃ m ∈ members, m.Enters inner :=
  enters_iff

@[simp] theorem array_enters {element inner : Ty} :
    (array element).Enters inner ↔ inner = .array element ∨ element.Enters inner := by
  rw [enters_iff]
  simp [walked]

end Ty

/-- Unfolding a type, where one name may be known from the start, comes to a class. -/
inductive Meets (stands : ClassTy → Option Ty) (known : Option String) : Ty → ClassTy → Prop
  | entered {ty : Ty} {c : ClassTy} : ty.Enters (.cls c) → Meets stands known ty c
  | target {ty : Ty} {c d : ClassTy} {target : Ty} : ty.Enters (.cls c) → some c.name ≠ known →
    stands c = some target → Meets stands known target d → Meets stands known ty d

/-- Unfolding a type comes to a class of a name that is not known from the start. -/
def Uses (stands : ClassTy → Option Ty) (known : Option String) (ty : Ty) (name : String) : Prop :=
  some name ≠ known ∧ ∃ c, Meets stands known ty c ∧ c.name = name

/-- Unfolding a type comes to a class of a name that is not known from the start, and the class
stands for an alias. -/
def Needs (stands : ClassTy → Option Ty) (known : Option String) (ty : Ty) (name : String) : Prop :=
  some name ≠ known ∧ ∃ c, Meets stands known ty c ∧ c.name = name ∧ (stands c).isSome = true

section

variable {stands : ClassTy → Option Ty} {known : Option String} {ty part : Ty} {c d : ClassTy}

theorem Needs.uses {name : String} (h : Needs stands known ty name) :
    Uses stands known ty name := by
  obtain ⟨hnew, c, hmeets, hname, -⟩ := h
  exact ⟨hnew, c, hmeets, hname⟩

theorem Ty.Enters.trans {inner : Ty} (h : ty.Enters part) (h' : part.Enters inner) :
    ty.Enters inner := by
  induction h with
  | refl ty => exact h'
  | part hpart _ ih => exact .part hpart (ih h')

theorem Meets.of_enters (hpart : ty.Enters part) (h : Meets stands known part c) :
    Meets stands known ty c := by
  cases h with
  | entered hc => exact .entered (hpart.trans hc)
  | target hd hnew hstands hc => exact .target (hpart.trans hd) hnew hstands hc

theorem Meets.exists_enters (h : Meets stands known ty c) : ∃ d, ty.Enters (.cls d) := by
  cases h with
  | entered hc => exact ⟨c, hc⟩
  | target hd _ _ _ => exact ⟨_, hd⟩

theorem Meets.cls_self (c : ClassTy) : Meets stands known (.cls c) c := .entered (.refl _)

end

/-! Unfoldings of one type that begin with different names. -/

/-- Two lists of names have grown by the same names. -/
def GrownAlike (names : String → Prop) (before before' after after' : List String) : Prop :=
  ∃ added : List String, (∀ name ∈ added, names name) ∧
    (∀ name, name ∈ after ↔ name ∈ before ∨ name ∈ added) ∧
    ∀ name, name ∈ after' ↔ name ∈ before' ∨ name ∈ added

section

variable {names : String → Prop} {met met' now now' : List String}

theorem GrownAlike.refl (names : String → Prop) (met met' : List String) :
    GrownAlike names met met' met met' :=
  ⟨[], List.forall_mem_nil _, fun _ => by simp, fun _ => by simp⟩

/-- The name is added to both lists, if it is not there before. -/
theorem GrownAlike.cons (h : GrownAlike names met met' now now') {name : String}
    (hname : names name) {next next' : List String}
    (hnext : ∀ other, other ∈ next ↔ other = name ∨ other ∈ now)
    (hnext' : ∀ other, other ∈ next' ↔ other = name ∨ other ∈ now') :
    GrownAlike names met met' next next' := by
  obtain ⟨added, hadded, hnow, hnow'⟩ := h
  refine ⟨name :: added, List.forall_mem_cons.mpr ⟨hname, hadded⟩, fun other => ?_, fun other => ?_⟩
  · rw [hnext, hnow, List.mem_cons, or_left_comm]
  · rw [hnext', hnow', List.mem_cons, or_left_comm]

end

section

variable {stands : ClassTy → Option Ty} {known : Option String} {met met' : List String}

/-- Unfoldings that began with these names. -/
def growing (names : String → Prop) (met met' : List String) : Lifting Unfolding Unfolding :=
  .ofStates fun now now' => GrownAlike names met met' now now'

/-- What a walk may come to: it adds no other names than these, and the lists agree on those of
aliases. -/
structure Covers (stands : ClassTy → Option Ty) (known : Option String) (names : String → Prop)
    (met met' : List String) (ty : Ty) : Prop where
  meets : ∀ c, Meets stands known ty c → names c.name
  needs : ∀ name, Needs stands known ty name → (name ∈ met ↔ name ∈ met')

theorem Covers.part {names : String → Prop} {ty part : Ty}
    (h : Covers stands known names met met' ty) (hpart : ty.Enters part) :
    Covers stands known names met met' part where
  meets c hc := h.meets c (hc.of_enters hpart)
  needs name := by
    rintro ⟨hnew, c, hc, hname⟩
    exact h.needs name ⟨hnew, c, hc.of_enters hpart, hname⟩

theorem Covers.target {names : String → Prop} {c : ClassTy} {target : Ty}
    (h : Covers stands known names met met' (.cls c)) (hnew : some c.name ≠ known)
    (hstands : stands c = some target) : Covers stands known names met met' target where
  meets d hd := h.meets d (.target (.refl _) hnew hstands hd)
  needs name := by
    rintro ⟨hname, d, hd, hrest⟩
    exact h.needs name ⟨hname, d, .target (.refl _) hnew hstands hd, hrest⟩

variable (hknown : ∀ name, some name = known → name ∈ met ∧ name ∈ met')

include hknown

theorem unfolder_growing {names : String → Prop} {unfold : Ty → Unfolding Ty}
    (hunfold : ∀ {target : Ty}, Covers stands known names met met' target →
      (growing names met met').Maps id (unfold target) (unfold target))
    {c : ClassTy} (hc : Covers stands known names met met' (.cls c)) :
    (growing names met met').Maps id ((unfolder stands unfold).atClass c)
      ((unfolder stands unfold).atClass c) := by
  intro now now' hgrown
  have hname : names c.name := hc.meets c (.cls_self c)
  obtain ⟨added, -, hnow, hnow'⟩ := id hgrown
  -- A class that only one of the two meets for the first time stands for no alias.
  have hnone (hdiffers : ¬(c.name ∈ now ↔ c.name ∈ now')) : stands c = none := by
    rw [hnow, hnow'] at hdiffers
    refine Option.not_isSome_iff_eq_none.mp fun hsome => hdiffers ?_
    have hnew : some c.name ≠ known := fun heq => hdiffers (by simp [hknown c.name heq])
    rw [hc.needs c.name ⟨hnew, c, .cls_self c, rfl, hsome⟩]
  by_cases hmem : c.name ∈ now
  · rw [unfolder_of_mem hmem]
    by_cases hmem' : c.name ∈ now'
    · rw [unfolder_of_mem hmem']
      exact ⟨rfl, hgrown⟩
    · rw [unfolder_of_none hmem' (hnone fun h => hmem' (h.mp hmem))]
      refine ⟨rfl, hgrown.cons hname (fun other => ?_) fun _ => List.mem_cons⟩
      exact ⟨.inr, fun h => h.elim (· ▸ hmem) id⟩
  · by_cases hmem' : c.name ∈ now'
    · rw [unfolder_of_mem hmem', unfolder_of_none hmem (hnone fun h => hmem (h.mpr hmem'))]
      refine ⟨rfl, hgrown.cons hname (fun _ => List.mem_cons) fun other => ?_⟩
      exact ⟨.inr, fun h => h.elim (· ▸ hmem') id⟩
    · have hcons : GrownAlike names met met' (c.name :: now) (c.name :: now') :=
        hgrown.cons hname (fun _ => List.mem_cons) fun _ => List.mem_cons
      cases hstands : stands c with
      | none =>
        rw [unfolder_of_none hmem hstands, unfolder_of_none hmem' hstands]
        exact ⟨rfl, hcons⟩
      | some target =>
        have hnew : some c.name ≠ known := fun heq =>
          hmem ((hnow c.name).mpr (.inl (hknown c.name heq).1))
        obtain ⟨hval, hstate⟩ := hunfold (hc.target hnew hstands) _ _ hcons
        rw [unfolder_of_some hmem hstands, unfolder_of_some hmem' hstands]
        exact ⟨congrArg (fun ty : Ty => ty.join (.cls c)) hval, hstate⟩

theorem rewrite_growing {names : String → Prop} {unfold : Ty → Unfolding Ty}
    (hunfold : ∀ {target : Ty}, Covers stands known names met met' target →
      (growing names met met').Maps id (unfold target) (unfold target))
    (depth : Nat) {ty : Ty} (h : Covers stands known names met met' ty) :
    (growing names met met').Maps id (ty.rewrite (unfolder stands unfold) depth)
      (ty.rewrite (unfolder stands unfold) depth) :=
  (growing names met met').rewrite_same rfl
    (fun h part hpart => h.part (.part hpart (.refl part)))
    (fun hc => unfolder_growing hknown hunfold hc) depth h

theorem unfoldWithin_growing {names : String → Prop} (n : Nat) {ty : Ty}
    (h : Covers stands known names met met' ty) :
    (growing names met met').Maps id (unfoldWithin stands n ty) (unfoldWithin stands n ty) := by
  induction n generalizing ty with
  | zero => exact (growing names met met').pure id ty
  | succ n ih => exact rewrite_growing hknown ih maxSubstDepth h

end

namespace Aliases

variable (A : Aliases) {met met' : List String}

/-- An unfolding gives the same where the names met before differ only in those that it does not
need, and it adds the same names. -/
theorem unfold_alike (known : Option String) (ty : Ty)
    (hknown : ∀ name, some name = known → name ∈ met ∧ name ∈ met')
    (hneeds : ∀ name, Needs A.stands known ty name → (name ∈ met ↔ name ∈ met')) (depth : Nat) :
    (A.unfold depth ty met').1 = (A.unfold depth ty met).1 ∧
      GrownAlike (fun name => ∃ c, Meets A.stands known ty c ∧ c.name = name) met met'
        (A.unfold depth ty met).2 (A.unfold depth ty met').2 :=
  rewrite_growing hknown (unfoldWithin_growing hknown A.room) depth
    ⟨fun c hc => ⟨c, hc, rfl⟩, hneeds⟩ met met' (.refl _ met met')

end Aliases

end LuaTypes
