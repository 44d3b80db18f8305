import LuaTypes.Proofs.ChainMemo
import LuaTypes.Proofs.WellFormedPrograms

/-!
Unfolding of aliases. Which alias a class stands for does not change while classes are read, so that
an expansion is a computation on the met class names alone: each class that is met for the first
time is unfolded into the target that it stands for.
-/

namespace LuaTypes

/-! What classes stand for. -/

/-- The alias target that a class stands for, where classes read as through the memo. -/
def ClassTy.standsFor (r : Resolver) (memo : ClassMemo) (c : ClassTy) : Option Ty :=
  if c.isGlobal || c.isAnonymous || c.isDocTable then none
  else
    match r.alias? c.name with
    | some target => some target
    | none =>
      match (c.detailsIn r memo).alias? with
      | some other => if other = c.name then none else r.alias? other
      | none => none

theorem ClassMemo.ReadsAs.aliasTarget? {r : Resolver} {memo memo' : ClassMemo}
    (h : memo.ReadsAs r memo') (c : ClassTy) :
    (c.aliasTarget? r memo').1 = c.standsFor r memo ∧
      memo.ReadsAs r (c.aliasTarget? r memo').2 := by
  obtain ⟨hread, hnext⟩ := h.readDetails c
  simp only [ClassTy.aliasTarget?, ClassTy.standsFor]
  split
  · exact ⟨rfl, h⟩
  · cases r.alias? c.name with
    | some target => exact ⟨rfl, h⟩
    | none =>
      have halias :
          c.alias? r memo' = ((c.detailsIn r memo).alias?, (c.readDetails r memo').2) := by
        rw [← hread]
        rfl
      simp only [bind, StateT.bind, halias]
      cases (c.detailsIn r memo).alias? <;> exact ⟨rfl, hnext⟩

theorem ClassTy.alias?_of_standsFor {r : Resolver} {memo : ClassMemo} {c : ClassTy} {target : Ty}
    (h : c.standsFor r memo = some target) : ∃ name, r.alias? name = some target := by
  have hread : (c.aliasTarget? r memo).1 = some target :=
    ((show memo.ReadsAs r memo from fun _ => rfl).aliasTarget? c).1.trans h
  exact ClassTy.alias?_of_aliasTarget? hread

/-! Unfolding. -/

/-- A computation on the class names met so far. -/
abbrev Unfolding := StateM (List String)

/-- Puts the unfolded target beside the class that stands for it, unless the name was met before. -/
def unfolder (stands : ClassTy → Option Ty) (unfold : Ty → Unfolding Ty) : Rewriter Unfolding where
  replace? c met :=
    if c.name ∈ met then (none, met)
    else
      match stands c with
      | some target =>
        let (ty, met) := unfold target (c.name :: met)
        (some (ty.join (.cls c)), met)
      | none => (some (.cls c), c.name :: met)
  entersGenerics := false

section

variable {stands : ClassTy → Option Ty} {unfold : Ty → Unfolding Ty} {c : ClassTy}
  {met : List String}

/-- A class whose name was met before stays as it is. -/
theorem unfolder_of_mem (h : c.name ∈ met) :
    (unfolder stands unfold).atClass c met = (.cls c, met) := by
  simp only [unfolder, Rewriter.atClass, bind, StateT.bind, if_pos h]
  rfl

/-- A class that stands for no alias stays as it is. -/
theorem unfolder_of_none (h : c.name ∉ met) (hstands : stands c = none) :
    (unfolder stands unfold).atClass c met = (.cls c, c.name :: met) := by
  simp only [unfolder, Rewriter.atClass, bind, StateT.bind, if_neg h, hstands]
  rfl

/-- A class that is met for the first time is put beside the unfolded target. -/
theorem unfolder_of_some (h : c.name ∉ met) {target : Ty} (hstands : stands c = some target) :
    (unfolder stands unfold).atClass c met =
      let (ty, met) := unfold target (c.name :: met)
      (ty.join (.cls c), met) := by
  simp only [unfolder, Rewriter.atClass, bind, StateT.bind, if_neg h, hstands]
  rfl

end

/-- Unfolds the aliases of a type, where unfolding may nest `n` deep. -/
def unfoldWithin (stands : ClassTy → Option Ty) : Nat → Ty → Unfolding Ty
  | 0, ty => return ty
  | n + 1, ty => ty.substitute (unfolder stands (unfoldWithin stands n))

section

variable {r : Resolver} {memo : ClassMemo}

/-- Expansions on these names, with a memo through which classes read as through the given one. -/
def Expanding.unfolding (r : Resolver) (memo : ClassMemo) : Lifting Expanding Unfolding :=
  .ofStates fun s met => met = s.visited ∧ memo.ReadsAs r s.memo

/-- An expansion unfolds what classes stand for. -/
theorem expandWithin_unfolds (n : Nat) (ty : Ty) :
    (Expanding.unfolding r memo).Maps id (expandWithin r n ty)
      (unfoldWithin (ClassTy.standsFor r memo) n ty) := by
  have hrename : Ty.rename (fun cell => cell) = id := funext Ty.rename_id
  induction n generalizing ty with
  | zero => exact (Expanding.unfolding r memo).pure id ty
  | succ n ih =>
    have hgenerics : (aliasRewriter r (expandWithin r n)).entersGenerics
        = (unfolder (ClassTy.standsFor r memo)
            (unfoldWithin (ClassTy.standsFor r memo) n)).entersGenerics := by
      simp only [aliasRewriter, unfolder]
    have hsubst := (Expanding.unfolding r memo).substitute (fun cell => cell) hgenerics ty
      fun c hc => ?_
    · rwa [hrename] at hsubst
    · rw [hrename, ClassTy.rename_id, Option.map_id]
      rintro s _ ⟨rfl, hreads⟩
      rw [aliasRewriter_apply]
      simp only [unfolder]
      split
      · exact ⟨rfl, rfl, hreads⟩
      · obtain ⟨htarget, hnext⟩ := hreads.aliasTarget? c
        rcases hread : c.aliasTarget? r s.memo with ⟨target?, memo'⟩
        rw [hread] at htarget hnext
        rw [← htarget]
        cases target? with
        | none => exact ⟨rfl, rfl, hnext⟩
        | some target =>
          obtain ⟨hval, hstate⟩ := ih target ⟨c.name :: s.visited, memo'⟩ _ ⟨rfl, hnext⟩
          exact ⟨congrArg (fun ty : Ty => some (ty.join (.cls c))) hval, hstate⟩

end

/-- What a resolver is like that tells well-formed alias targets and counts their class nodes, in
which no more names occur than there are nodes. -/
structure Resolver.Counted (r : Resolver) : Prop where
  names : ∃ names : List String, names.length ≤ r.aliasWeight ∧
    ∀ (name : String) (target : Ty), r.alias? name = some target → target.classNames ⊆ names
  wellFormed : r.WellFormed

/-- The aliases that classes stand for, and how deep their targets nest in each other. -/
structure Aliases where
  stands : ClassTy → Option Ty
  room : Nat
  target {c : ClassTy} {target : Ty} : stands c = some target → target.WellFormed
  names : ∃ names : List String, ∀ {c : ClassTy} {target : Ty},
    stands c = some target → target.classNames ⊆ names
  settled {c : ClassTy} {target : Ty} : stands c = some target →
    unfoldWithin stands room target = unfoldWithin stands (room + 1) target

/-- What classes stand for that read as through the memo. -/
def Resolver.Counted.aliases {r : Resolver} (h : r.Counted) (memo : ClassMemo) : Aliases where
  stands := ClassTy.standsFor r memo
  room := r.aliasWeight + 1
  target hstands := by
    obtain ⟨name, halias⟩ := ClassTy.alias?_of_standsFor hstands
    exact h.wellFormed name _ halias
  names := by
    obtain ⟨names, -, htargets⟩ := h.names
    refine ⟨names, fun {c target} hstands => ?_⟩
    obtain ⟨name, halias⟩ := ClassTy.alias?_of_standsFor hstands
    exact htargets name target halias
  settled {c target} hstands := by
    obtain ⟨names, hlength, htargets⟩ := h.names
    obtain ⟨name, halias⟩ := ClassTy.alias?_of_standsFor hstands
    funext met
    have hreads : memo.ReadsAs r memo := fun _ => rfl
    have hroom := expandWithin_add htargets (Nat.lt_succ_of_le hlength) 1
      (htargets name target halias) ⟨met, memo⟩ ⟨met, memo⟩ ⟨rfl, List.countP_le_length⟩
    obtain ⟨hval, hmet, -⟩ :=
      expandWithin_unfolds (r.aliasWeight + 1) target ⟨met, memo⟩ met ⟨rfl, hreads⟩
    obtain ⟨hval', hmet', -⟩ :=
      expandWithin_unfolds (r.aliasWeight + 1 + 1) target ⟨met, memo⟩ met ⟨rfl, hreads⟩
    refine Prod.ext (hval.trans (hroom.1.symm.trans hval'.symm)) (hmet.trans ?_)
    exact (congrArg Expansion.visited hroom.2.1.symm).trans hmet'.symm

namespace Aliases

variable (A : Aliases)

/-- Unfolds the aliases of a type down to a nesting of `depth`. -/
def unfold (depth : Nat) (ty : Ty) : Unfolding Ty :=
  ty.rewrite (unfolder A.stands (unfoldWithin A.stands A.room)) depth

variable {A}

theorem unfoldWithin_target {c : ClassTy} {target : Ty} (h : A.stands c = some target) :
    unfoldWithin A.stands A.room target = A.unfold maxSubstDepth target := by
  rw [A.settled h]
  rfl

@[simp] theorem unfold_zero (ty : Ty) (met : List String) : A.unfold 0 ty met = (ty, met) := rfl

theorem unfold_cls_of_mem {c : ClassTy} {met : List String} (h : c.name ∈ met) (depth : Nat) :
    A.unfold (depth + 1) (.cls c) met = (.cls c, met) := unfolder_of_mem h

theorem unfold_cls_of_none {c : ClassTy} {met : List String} (h : c.name ∉ met)
    (hstands : A.stands c = none) (depth : Nat) :
    A.unfold (depth + 1) (.cls c) met = (.cls c, c.name :: met) := unfolder_of_none h hstands

/-- A class that is met for the first time has its target unfolded from the top. -/
theorem unfold_cls_of_some {c : ClassTy} {met : List String} (h : c.name ∉ met) {target : Ty}
    (hstands : A.stands c = some target) (depth : Nat) :
    A.unfold (depth + 1) (.cls c) met =
      let (ty, met) := A.unfold maxSubstDepth target (c.name :: met)
      (ty.join (.cls c), met) := by
  rw [← unfoldWithin_target hstands]
  exact unfolder_of_some h hstands

/-- Computations that unfold aliases. -/
def keeping : Keeping Unfolding := Keeping.values.state fun _ => True

theorem rewrite_wellFormed {unfold : Ty → Unfolding Ty}
    (hunfold : ∀ {target : Ty}, target.WellFormed → keeping.Ensures Ty.WellFormed (unfold target))
    (depth : Nat) {ty : Ty} (h : ty.WellFormed) :
    keeping.Ensures Ty.WellFormed (ty.rewrite (unfolder A.stands unfold) depth) := by
  refine (keeping.rewrite_keeps (T := wellFormed) (fun c hc met _ => ?_) depth ty).1 h
  simp only [unfolder]
  split
  · exact ⟨nofun, trivial⟩
  · cases hstands : A.stands c with
    | none =>
      refine ⟨?_, trivial⟩
      rintro _ ⟨⟩
      exact hc
    | some target =>
      obtain ⟨htarget, -⟩ := hunfold (A.target hstands) (c.name :: met) trivial
      refine ⟨?_, trivial⟩
      rintro _ ⟨⟩
      exact htarget.join hc

theorem unfoldWithin_wellFormed (n : Nat) {ty : Ty} (h : ty.WellFormed) :
    keeping.Ensures Ty.WellFormed (unfoldWithin A.stands n ty) := by
  induction n generalizing ty with
  | zero => exact keeping.pure h
  | succ n ih => exact rewrite_wellFormed ih maxSubstDepth h

theorem unfold_wellFormed (depth : Nat) {ty : Ty} (h : ty.WellFormed) (met : List String) :
    (A.unfold depth ty met).1.WellFormed :=
  (rewrite_wellFormed (unfoldWithin_wellFormed A.room) depth h met trivial).1

end Aliases

/-- An expansion with no class met before unfolds what classes stand for. -/
theorem expandAliases_unfolds {r : Resolver} (h : r.Counted) {memo memo' : ClassMemo}
    (hreads : memo.ReadsAs r memo') (ty : Ty) :
    (expandAliases r ty memo').1 = ((h.aliases memo).unfold maxSubstDepth ty []).1 ∧
      memo.ReadsAs r (expandAliases r ty memo').2 := by
  obtain ⟨hval, -, hnext⟩ :=
    expandWithin_unfolds (r.aliasWeight + 2) ty { memo := memo' } [] ⟨rfl, hreads⟩
  exact ⟨hval.symm, hnext⟩

theorem Index.Built.counted {ix : Index} (h : ix.Built) (cancelled : Bool)
    (hwellFormed : (ix.resolver cancelled).WellFormed) : (ix.resolver cancelled).Counted :=
  let ⟨names, hlength, htargets⟩ := h.resolver_targets cancelled
  ⟨⟨names, Nat.le_of_eq hlength, htargets⟩, hwellFormed⟩

end LuaTypes
