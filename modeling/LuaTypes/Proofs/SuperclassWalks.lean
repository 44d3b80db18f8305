import LuaTypes.Proofs.Reachability

/-!
Superclass walks with visitors. A walk finds the class names that steps lead to from its start, in
the order of a depth-first search, and ends early if the visitor stops or the walk is cancelled. It
does not go on from its start where it comes back to it, whatever the resolver knows of that name.
-/

namespace LuaTypes

/-! Visits. -/

section

variable {σ : Type} (cancelled : σ → Bool) (visitor : ClassTy → StateM σ Flow)

/-- The state after visits to these classes. -/
def visitAll : List ClassTy → σ → σ
  | [], s => s
  | c :: rest, s => visitAll rest (visitor c s).2

/-- The visitor stops at none of these classes, and the walk is not cancelled before it comes to
them. -/
def Undisturbed : List ClassTy → σ → Prop
  | [], _ => True
  | c :: rest, s => cancelled s = false ∧ (visitor c s).1 = .next ∧ Undisturbed rest (visitor c s).2

variable {cancelled visitor} {seen rest : List ClassTy} {s : σ}

theorem offerUntil_cons (c : ClassTy) (rest : List ClassTy) (s : σ) :
    offerUntil (cancelled <$> get) visitor (c :: rest) s =
      if cancelled s then (.next, s)
      else match visitor c s with
        | (.stop, s) => (.stop, s)
        | (.next, s) => offerUntil (cancelled <$> get) visitor rest s := by
  change (if cancelled s then pure .next else _ : StateM σ Flow) s = _
  cases cancelled s with
  | true => rfl
  | false =>
    rcases hvisit : visitor c s with ⟨flow, s'⟩
    simp only [Bool.false_eq_true, if_false, bind, StateT.bind, hvisit]
    cases flow <;> rfl

theorem Undisturbed.offerUntil (h : Undisturbed cancelled visitor seen s) :
    offerUntil (cancelled <$> get) visitor (seen ++ rest) s
      = LuaTypes.offerUntil (cancelled <$> get) visitor rest (visitAll visitor seen s) := by
  induction seen generalizing s with
  | nil => rfl
  | cons c seen ih =>
    obtain ⟨hcancelled, hnext, hseen⟩ := h
    rw [List.cons_append, offerUntil_cons, hcancelled, if_neg Bool.false_ne_true]
    rcases hvisit : visitor c s with ⟨flow, s'⟩
    rw [hvisit] at hnext hseen
    obtain rfl : flow = .next := hnext
    rw [visitAll, hvisit]
    exact ih hseen

end

namespace ClassTy

section

variable (r : Resolver) (memo : ClassMemo) (c : ClassTy)

/-- The other class names that steps lead to from the class by its own details and then by what the
resolver knows, also of the name of the class where it is come back to. -/
def reachedAnew : Set String :=
  { name | (∃ first ∈ r.steps (c.detailsIn r memo),
    Relation.ReflTransGen (fun last next => next ∈ r.steps (r.superDetails last)) first name) ∧
    name ≠ c.name }

variable {r memo c}

/-- Coming back to the class makes a difference only if the resolver knows of more superclasses. -/
theorem reachedAnew_eq_reached (h : ∀ next ∈ r.steps (r.superDetails c.name),
    next ∈ r.steps (c.detailsIn r memo)) : c.reachedAnew r memo = c.reached r memo := by
  ext name
  refine and_congr_left' ⟨?_, fun htrans => ?_⟩
  · rintro ⟨first, hfirst, htrans⟩
    induction htrans with
    | refl => exact .single (by rwa [stepsIn, if_pos rfl])
    | @tail last next _ hnext ih =>
      refine ih.tail ?_
      rw [stepsIn]
      split
      · rename_i hself
        exact h next (hself ▸ hnext)
      · exact hnext
  · induction htrans with
    | single hnext =>
      rw [stepsIn, if_pos rfl] at hnext
      exact ⟨_, hnext, .refl⟩
    | tail _ hnext ih =>
      obtain ⟨first, hfirst, htrans⟩ := ih
      rw [stepsIn] at hnext
      split at hnext
      · exact ⟨_, hnext, .refl⟩
      · exact ⟨first, hfirst, htrans.tail hnext⟩

end

variable {r : Resolver} {memo : ClassMemo} {c t : ClassTy}

theorem subtype_cls (hne : (c == t) = false) (htable : t.isUniversalTable = false) :
    ((Ty.cls c).subtype r (.cls t) memo).1
      = (!r.cancelled && (c.ancestors r memo).1.any (· == t)) := by
  have hfar : (Ty.cls c == Ty.cls t) = false := hne
  rw [Ty.subtype, if_neg (by simp [hfar, Ty.isInvalid]), if_neg (by simp [htable])]
  rfl

/-- A class inherits from the classes without flags that steps lead to, if they are fewer than a
walk may see. -/
theorem subtype_cls_iff (hfew : (c.reached r memo).encard < maxSuperclassWalk)
    (hne : (c == t) = false) (htable : t.isUniversalTable = false) :
    ((Ty.cls c).subtype r (.cls t) memo).1 = true ↔
      r.cancelled = false ∧ t.flags = {} ∧ t.name ∈ c.reached r memo := by
  have hle : (c.reached r memo).encard ≤ (maxSuperclassWalk - 1 : Nat) := by
    obtain ⟨n, hn⟩ := ENat.ne_top_iff_exists.mp (ne_top_of_lt hfew)
    rw [← hn, Nat.cast_lt] at hfew
    rw [← hn, Nat.cast_le]
    omega
  have hsame (name : String) : (r.superClass name == t) = true ↔ t.flags = {} ∧ t.name = name :=
    (Ty.same_cls_iff _ _).trans (and_comm.trans (and_congr eq_comm eq_comm))
  rw [subtype_cls hne htable, ancestors_eq_depthFirst, Bool.and_eq_true, Bool.not_eq_true',
    List.any_map, List.any_eq_true, ← mem_depthFirst_iff hle]
  refine and_congr_right fun _ => ⟨?_, fun ⟨hflags, hname⟩ => ⟨t.name, hname, ?_⟩⟩
  · rintro ⟨name, hname, h⟩
    obtain ⟨hflags, rfl⟩ := (hsame name).mp h
    exact ⟨hflags, hname⟩
  · exact (hsame t.name).mpr ⟨hflags, rfl⟩

/-- These are the names of the classes that a walk comes to, in their order. -/
structure WalksTo (r : Resolver) (memo : ClassMemo) (c : ClassTy) (names : List String) :
    Prop where
  classes : (c.ancestors r memo).1 = names.map r.superClass
  order : names = depthFirst (c.stepsIn r memo) (maxSuperclassWalk - 1) [c.name]
  nodup : names.Nodup
  reached : ∀ name ∈ names, name ∈ c.reached r memo
  many : (names.length : ℕ∞) = min (c.reached r memo).encard (maxSuperclassWalk - 1 : Nat)

/-- How a walk ends after it has visited some classes: where no class is left or the walk is
cancelled, and where the visitor stops at the next class. -/
structure EndsAfter {σ : Type} (r : Resolver) (memo : ClassMemo) (c : ClassTy)
    (cancelled : σ → Bool) (visitor : ClassTy → StateM σ Flow) (s : σ) (seen rest : List ClassTy) :
    Prop where
  ends : rest = [] ∨ cancelled (visitAll visitor seen s) = true →
    c.visitAncestors r (cancelled <$> get) visitor memo s
      = ((.next, (c.ancestors r memo).2), visitAll visitor seen s)
  stops : ∀ d others, rest = d :: others → cancelled (visitAll visitor seen s) = false →
    (visitor d (visitAll visitor seen s)).1 = .stop →
    c.visitAncestors r (cancelled <$> get) visitor memo s
      = ((.stop, (c.ancestors r memo).2), (visitor d (visitAll visitor seen s)).2)

theorem walksTo_depthFirst (r : Resolver) (memo : ClassMemo) (c : ClassTy) :
    c.WalksTo r memo (depthFirst (c.stepsIn r memo) (maxSuperclassWalk - 1) [c.name]) where
  classes := ancestors_eq_depthFirst r memo c
  order := rfl
  nodup := nodup_depthFirst.1
  reached := reached_of_mem_depthFirst
  many := length_depthFirst _

theorem endsAfter_undisturbed {σ : Type} {cancelled : σ → Bool} {visitor : ClassTy → StateM σ Flow}
    {s : σ} {seen rest : List ClassTy} (hall : (c.ancestors r memo).1 = seen ++ rest)
    (hseen : Undisturbed cancelled visitor seen s) :
    c.EndsAfter r memo cancelled visitor s seen rest := by
  have hrun : c.visitAncestors r (cancelled <$> get) visitor memo s
      = (((offerUntil (cancelled <$> get) visitor rest (visitAll visitor seen s)).1,
          (c.ancestors r memo).2),
        (offerUntil (cancelled <$> get) visitor rest (visitAll visitor seen s)).2) := by
    rw [← hseen.offerUntil, ← hall]
    rfl
  constructor
  · rw [hrun]
    cases rest with
    | nil => exact fun _ => rfl
    | cons d others =>
      intro hoff
      rw [offerUntil_cons, if_pos (hoff.resolve_left (List.cons_ne_nil d others))]
  · rintro d others rfl hon hstop
    rw [hrun, offerUntil_cons, hon, if_neg Bool.false_ne_true]
    rcases hvisit : visitor d (visitAll visitor seen s) with ⟨flow, after⟩
    rw [hvisit] at hstop
    obtain rfl : flow = .stop := hstop
    rfl

/-- Walks are reachability. A walk comes to distinct names that steps lead to from the class, in the
order of a search, and to as many of them as there are or as it may come to. The visitor is offered
the classes of these names one after the other until it stops or the walk is cancelled, and a class
inherits from the classes without flags that steps lead to. Where steps lead back to the class they
go on by the class's own details, whatever the resolver knows of its name. -/
theorem walk_reached (r : Resolver) (memo : ClassMemo) (c : ClassTy) :
    (∃ names, c.WalksTo r memo names) ∧
    (∀ {σ : Type} (cancelled : σ → Bool) (visitor : ClassTy → StateM σ Flow) (s : σ)
      (seen rest : List ClassTy), (c.ancestors r memo).1 = seen ++ rest →
      Undisturbed cancelled visitor seen s →
      c.EndsAfter r memo cancelled visitor s seen rest) ∧
    ((c.reached r memo).encard < maxSuperclassWalk →
      ∀ t : ClassTy, (c == t) = false → t.isUniversalTable = false →
        (((Ty.cls c).subtype r (.cls t) memo).1 = true ↔
          r.cancelled = false ∧ t.flags = {} ∧ t.name ∈ c.reached r memo)) ∧
    ((∀ next ∈ r.steps (r.superDetails c.name), next ∈ r.steps (c.detailsIn r memo)) →
      c.reachedAnew r memo = c.reached r memo) := by
  refine ⟨⟨_, walksTo_depthFirst r memo c⟩, ?_, ?_, reachedAnew_eq_reached⟩
  · exact fun _ _ _ _ _ hall hseen => endsAfter_undisturbed hall hseen
  · exact fun hfew _ hne htable => subtype_cls_iff hfew hne htable

end ClassTy

/-- A class whose two superclasses share a superclass, which inherits from the class again. -/
def Resolver.looped : Resolver :=
  { Resolver.empty with
    details? := fun name =>
      if name = "Foo" then some { supers := ["Left", "Right"] }
      else if name = "Left" ∨ name = "Right" then some { supers := ["Base"] }
      else if name = "Base" then some { supers := ["Foo"] }
      else none }

theorem Resolver.looped_ancestors :
    ((ClassTy.declared "Foo" { supers := ["Left", "Right"] }).ancestors looped {}).1
      = ["Left", "Base", "Right"].map looped.superClass := by
  have hnames : depthFirst
      ((ClassTy.declared "Foo" { supers := ["Left", "Right"] }).stepsIn looped {})
      (maxSuperclassWalk - 1) ["Foo"] = ["Left", "Base", "Right"] := by decide +kernel
  rw [ClassTy.ancestors_eq_depthFirst, ← hnames]
  rfl

/-- A visitor that keeps the names and stops at the shared superclass. -/
theorem ClassTy.walk_reached_looped :
    let foo := ClassTy.declared "Foo" { supers := ["Left", "Right"] }
    let base := ClassTy.declared "Base" { supers := ["Foo"] }
    let visitor (d : ClassTy) : StateM (List String) Flow := fun names =>
      (if d.name = "Base" then .stop else .next, d.name :: names)
    let on (_ : List String) : Bool := false
    Undisturbed on visitor [Resolver.looped.superClass "Left"] [] ∧
    foo.visitAncestors Resolver.looped (on <$> get) visitor {} []
      = ((.stop, {}), ["Base", "Left"]) ∧
    (foo.reached Resolver.looped {}).encard = 3 ∧
    (foo == base) = false ∧ base.isUniversalTable = false ∧
    "Base" ∈ foo.reached Resolver.looped {} ∧
    ((Ty.cls foo).subtype Resolver.looped (.cls base) {}).1 = true ∧
    foo.reachedAnew Resolver.looped {} = foo.reached Resolver.looped {} := by
  intro foo base visitor on
  obtain ⟨⟨names, hwalked, -, -, hreached, hlength⟩, hends, hsub, hanew⟩ :=
    walk_reached Resolver.looped {} foo
  have hundisturbed : Undisturbed on visitor [Resolver.looped.superClass "Left"] [] :=
    ⟨rfl, by decide, trivial⟩
  have hnames : names = ["Left", "Base", "Right"] := by
    have hnames := congrArg (List.map ClassTy.name) (hwalked.symm.trans Resolver.looped_ancestors)
    simpa [Function.comp_def, Resolver.superClass_name] using hnames
  have hmany : (foo.reached Resolver.looped {}).encard = 3 := by
    rw [hnames] at hlength
    rcases min_choice (foo.reached Resolver.looped {}).encard (maxSuperclassWalk - 1 : Nat)
      with hmin | hmin
    · exact hmin.symm.trans hlength.symm
    · exact absurd (Nat.cast_inj.mp (hlength.trans hmin)) (by decide)
  have hbase : "Base" ∈ foo.reached Resolver.looped {} := hreached _ (hnames ▸ by decide)
  have hfew : (foo.reached Resolver.looped {}).encard < maxSuperclassWalk := by
    rw [hmany]
    exact Nat.cast_lt.mpr (show 3 < maxSuperclassWalk by decide)
  refine ⟨hundisturbed, ?_, hmany, by decide, by decide, hbase, ?_, hanew ?_⟩
  · have hafter := hends on visitor [] _ _ Resolver.looped_ancestors hundisturbed
    exact hafter.stops _ _ rfl rfl rfl
  · exact (hsub hfew base (by decide) (by decide)).mpr ⟨rfl, rfl, hbase⟩
  · decide +kernel

/-- A superclass inherits from a class of this name, of which more is known than the class says. -/
def Resolver.returning : Resolver :=
  { Resolver.empty with
    details? := fun name =>
      if name = "Foo" then some { supers := ["Base"] }
      else if name = "Bar" then some { supers := ["Foo"] }
      else if name = "Base" then some {}
      else none }

theorem Resolver.returning_reachedAnew :
    (ClassTy.declared "Foo" { supers := ["Bar"] }).reachedAnew returning {} = {"Bar", "Base"} := by
  have hfirst : returning.steps
      ((ClassTy.declared "Foo" { supers := ["Bar"] }).detailsIn returning {}) = ["Bar"] := by
    decide +kernel
  have hbar : returning.steps (returning.superDetails "Bar") = ["Foo"] := by decide +kernel
  have hfoo : returning.steps (returning.superDetails "Foo") = ["Base"] := by decide +kernel
  have hbase : returning.steps (returning.superDetails "Base") = [] := by decide +kernel
  ext name
  constructor
  · rintro ⟨⟨first, hmem, htrans⟩, hne⟩
    rw [hfirst, List.mem_singleton] at hmem
    subst hmem
    have hall : name = "Bar" ∨ name = "Foo" ∨ name = "Base" := by
      clear hne
      induction htrans with
      | refl => exact .inl rfl
      | tail _ hnext ih =>
        rcases ih with rfl | rfl | rfl
        · exact .inr (.inl (List.mem_singleton.mp (hbar ▸ hnext)))
        · exact .inr (.inr (List.mem_singleton.mp (hfoo ▸ hnext)))
        · exact absurd (hbase ▸ hnext) List.not_mem_nil
    exact hall.imp_right fun hrest => hrest.resolve_left hne
  · rintro (rfl | rfl)
    · exact ⟨⟨"Bar", hfirst ▸ List.mem_singleton_self _, .refl⟩, by decide⟩
    · refine ⟨⟨"Bar", hfirst ▸ List.mem_singleton_self _, ?_⟩, by decide⟩
      refine (Relation.ReflTransGen.single ?_).tail (b := "Foo") ?_
      · exact hbar ▸ List.mem_singleton_self _
      · exact hfoo ▸ List.mem_singleton_self _

/-- A walk that comes back to its start does not go on there by what the resolver knows. -/
theorem ClassTy.walk_not_reachedAnew :
    let foo := ClassTy.declared "Foo" { supers := ["Bar"] }
    let base := ClassTy.declared "Base" {}
    (foo.ancestors Resolver.returning {}).1.map (·.name) = ["Bar"] ∧
    foo.reachedAnew Resolver.returning {} = {"Bar", "Base"} ∧
    ((foo.ancestors Resolver.returning {}).1.length : ℕ∞)
      ≠ min (foo.reachedAnew Resolver.returning {}).encard (maxSuperclassWalk - 1 : Nat) ∧
    (foo == base) = false ∧ base.isUniversalTable = false ∧
    (foo.reachedAnew Resolver.returning {}).encard < maxSuperclassWalk ∧
    Resolver.returning.cancelled = false ∧ base.flags = {} ∧
    base.name ∈ foo.reachedAnew Resolver.returning {} ∧
    ((Ty.cls foo).subtype Resolver.returning (.cls base) {}).1 = false := by
  intro foo base
  have hwalked : (foo.ancestors Resolver.returning {}).1
      = ["Bar"].map Resolver.returning.superClass := by
    have hnames : depthFirst (foo.stepsIn Resolver.returning {}) (maxSuperclassWalk - 1) ["Foo"]
        = ["Bar"] := by decide +kernel
    rw [ancestors_eq_depthFirst, ← hnames]
    rfl
  have hmany : (foo.reachedAnew Resolver.returning {}).encard = 2 := by
    rw [Resolver.returning_reachedAnew]
    exact Set.encard_pair (by decide)
  refine ⟨?_, Resolver.returning_reachedAnew, ?_, by decide, by decide, ?_, rfl, rfl, ?_, ?_⟩
  · rw [hwalked]
    rfl
  · rw [hwalked, hmany]
    decide
  · rw [hmany]
    exact Nat.cast_lt.mpr (show 2 < maxSuperclassWalk by decide)
  · rw [Resolver.returning_reachedAnew]
    exact .inr rfl
  · rw [subtype_cls (by decide) (by decide), hwalked]
    decide

end LuaTypes
