import LuaTypes.Proofs.Independence
import LuaTypes.Proofs.Untangled

/-!
Aliases that stand for unions of classes. Expanding a type whose members are classes met by name,
primitive types and generic types comes to everything that its classes lead to, however the aliases
name each other.
-/

namespace LuaTypes

/-- A type that an expansion does not go into, or a class met by name. -/
inductive Ty.IsSimple : Ty → Prop
  | unknown : IsSimple .unknown
  | invalid : IsSimple .invalid
  | cls (name : String) (cell : Nat) : IsSimple (.cls (.deferred name cell))
  | prim (p : Prim) : IsSimple (.prim p)
  | generic (base : Ty) (args : List Ty) : IsSimple (.generic base args)

/-- The type is simple, or a union of such types. -/
def Ty.IsFlat (ty : Ty) : Prop := ∀ m ∈ ty.each, m.IsSimple

namespace Resolver

variable (r : Resolver)

/-- A class of this name leads to the target of the alias of the same name, or else to that of the
other name that its details give. -/
def Leads (name : String) (target : Ty) : Prop :=
  r.alias? name = some target ∨ r.alias? name = none ∧ ∃ details other,
    r.details? name = some details ∧ details.alias? = some other ∧ other ≠ name ∧
      r.alias? other = some target

/-- The members of a type, and those of whatever their classes lead to. -/
inductive Reaches (ty : Ty) : Ty → Prop
  | member {m : Ty} : m ∈ ty.each → Reaches ty m
  | target {c : ClassTy} {target m : Ty} :
    Reaches ty (.cls c) → r.Leads c.name target → m ∈ target.each → Reaches ty m

/-- The aliases stand for flat types. -/
def IsFlat : Prop := ∀ name target, r.alias? name = some target → target.IsFlat

end Resolver

section

variable {r : Resolver} {memo : ClassMemo}

theorem ClassTy.detailsIn_deferred (hready : r.ready = true) (hmemo : memo.Agrees r) (name : String)
    (cell : Nat) : (ClassTy.deferred name cell).detailsIn r memo = (r.details? name).getD {} := by
  rw [← readDetails_fst, (readDetails_agrees hready _ hmemo).1]
  rfl

/-- Where the memo holds what the resolver says, a class met by name stands for what its name leads
to. -/
theorem ClassTy.standsFor_deferred (hready : r.ready = true) (hmemo : memo.Agrees r)
    (name : String) (cell : Nat) (target : Ty) :
    (ClassTy.deferred name cell).standsFor r memo = some target ↔ r.Leads name target := by
  have hplain : ((ClassTy.deferred name cell).isGlobal || (ClassTy.deferred name cell).isAnonymous
      || (ClassTy.deferred name cell).isDocTable) = false := rfl
  have hname : (ClassTy.deferred name cell).name = name := rfl
  rw [standsFor, hplain, if_neg Bool.false_ne_true, detailsIn_deferred hready hmemo, hname,
    Resolver.Leads]
  cases halias : r.alias? name with
  | some found => simp
  | none =>
    cases hdetails : r.details? name with
    | none => simp
    | some details =>
      cases hother : details.alias? with
      | none => simp [hother]
      | some other => by_cases heq : other = name <;> simp [hother, heq]

theorem Ty.IsSimple.standsFor_iff (hready : r.ready = true) (hmemo : memo.Agrees r) {c : ClassTy}
    (h : (Ty.cls c).IsSimple) (target : Ty) :
    c.standsFor r memo = some target ↔ r.Leads c.name target := by
  cases h with
  | cls name cell => exact ClassTy.standsFor_deferred hready hmemo name cell target

theorem Resolver.Leads.exists_alias {name : String} {target : Ty} (h : r.Leads name target) :
    ∃ other, r.alias? other = some target := by
  rcases h with h | ⟨-, _, other, -, -, -, h⟩
  · exact ⟨name, h⟩
  · exact ⟨other, h⟩

namespace Resolver.Reaches

variable {ty m : Ty} (h : r.Reaches ty m)

include h

/-- What is reached is reached as a member of the type or of an alias target. -/
theorem of_members {P : Ty → Prop} (hty : ∀ m ∈ ty.each, P m)
    (htargets : ∀ name target, r.alias? name = some target → ∀ m ∈ target.each, P m) : P m := by
  cases h with
  | member hm => exact hty m hm
  | target _ hleads hm =>
    obtain ⟨name, halias⟩ := hleads.exists_alias
    exact htargets name _ halias m hm

end Resolver.Reaches

/-! What is laid out. -/

variable (hready : r.ready = true) (hmemo : memo.Agrees r) (hflat : r.IsFlat) {ty : Ty}
  (hty : ty.IsFlat)

include hready hmemo hflat hty

/-- Once all classes of a flat type are laid open, just what is reached lies there. -/
theorem Resolver.reaches_iff_laidOut {m : Ty} : r.Reaches ty m ↔
    ∃ source, LaidOut (ClassTy.standsFor r memo) (fun _ => True) ty.each source m := by
  have hcls {c : ClassTy} (h : r.Reaches ty (.cls c)) :=
    (h.of_members hty hflat).standsFor_iff hready hmemo
  constructor
  · intro h
    induction h with
    | member hm => exact ⟨none, .member hm⟩
    | target hc hleads hm ih =>
      obtain ⟨source, hlaid⟩ := ih
      exact ⟨_, .target hlaid trivial ((hcls hc _).mpr hleads) hm⟩
  · rintro ⟨source, h⟩
    induction h with
    | member hm => exact .member hm
    | target _ _ hstands hm ih => exact .target ih ((hcls ih _).mp hstands) hm

theorem Resolver.untangled : Untangled (ClassTy.standsFor r memo) (fun _ => True) ty.each := by
  have hsimple {source : Option String} {part : Ty}
      (h : LaidOut (ClassTy.standsFor r memo) (fun _ => True) ty.each source part) :
      part.IsSimple :=
    ((reaches_iff_laidOut hready hmemo hflat hty).mpr ⟨source, h⟩).of_members hty hflat
  refine .of_classes (fun source part hpart => ?_) fun source source' c d hc hd hname => ?_
  · cases hsimple hpart with
    | cls name cell => exact .inl ⟨_, rfl⟩
    | _ =>
      refine .inr fun c hc => ?_
      rw [Ty.enters_iff] at hc
      simp [Ty.walked] at hc
  · refine Option.ext fun target => ?_
    rw [(hsimple hc).standsFor_iff hready hmemo, (hsimple hd).standsFor_iff hready hmemo, hname]

end

/-- Unfolding leaves a simple type as it is, unless it is a class. -/
theorem Aliases.unfold_simple {A : Aliases} {part : Ty} (h : part.IsSimple)
    (hother : ∀ c, part ≠ .cls c) (depth : Nat) (met : List String) :
    A.unfold depth part met = (part, met) := by
  cases h with
  | cls name cell => exact absurd rfl (hother _)
  | _ => cases depth <;> rfl

theorem Ty.IsSimple.each {m : Ty} (h : m.IsSimple) : m.each = [m] := by
  cases h <;> rfl

/-- Where no name is met before, a walk comes to whatever is laid out. -/
theorem LaidOut.walkedTo {stands : ClassTy → Option Ty} {opened : ClassTy → Prop}
    {members : List Ty} {source : Option String} {part : Ty}
    (h : LaidOut stands opened members source part) (depth : Nat) :
    ∃ n, WalkedTo stands opened [] depth members source n part := by
  induction h with
  | member hm => exact ⟨depth, .member hm⟩
  | target _ hopened hstands hm ih =>
    obtain ⟨n, hwalked⟩ := ih
    exact ⟨_, .target hwalked hopened List.not_mem_nil hstands hm⟩

namespace Resolver.Counted

variable {r : Resolver} (h : r.Counted)

include h

/-- An expansion comes to its end: it does not matter what is done where the room ends. -/
theorem expandFrom_eq (base : Ty → Expanding Ty) (extra : Nat) (ty : Ty) :
    expandFrom r base (r.aliasWeight + 2 + extra) ty = expand r ty := by
  obtain ⟨names, hlength, htargets⟩ := h.names
  have htop (base : Ty → Expanding Ty) (extra : Nat) :
      expandFrom r base (r.aliasWeight + 2 + extra) ty
        = expandFrom r pure (names.length + 1 + 1) ty := by
    rw [show r.aliasWeight + 2 + extra
      = names.length + 1 + (r.aliasWeight - names.length + extra) + 1 by omega]
    exact expandFrom_top htargets pure base _ ty
  rw [htop, expand, ← expandFrom_pure]
  exact (htop pure 0).symm

variable {memo : ClassMemo} (hready : r.ready = true) (hmemo : memo.Agrees r) (hflat : r.IsFlat)
  {ty : Ty} (hwf : ty.WellFormed) (hty : ty.IsFlat)

include hready hmemo hflat hwf hty

/-- A type expands to whatever its classes lead to. -/
theorem shows_expandAliases {m : Ty} (hm : m.WellFormed) : (expandAliases r ty memo).1.Shows m ↔
    ∃ n, r.Reaches ty n ∧ n.isInvalid = false ∧ m.Same n := by
  have hreads : memo.ReadsAs r memo := fun _ => rfl
  have huntangled : Untangled (h.aliases memo).stands (fun _ => True) ty.each :=
    untangled hready hmemo hflat hty
  have hdepth : 0 < ty.eachDepth maxSubstDepth := by
    cases ty <;> simp [Ty.eachDepth, maxSubstDepth]
  have hlayout := (huntangled.unfold_members hwf.each (fun _ => Iff.rfl) hwf.nodup_each [] hdepth).2
    m hm
  have hreaches {n : Ty} := reaches_iff_laidOut hready hmemo hflat hty (m := n)
  rw [(expandAliases_unfolds h hreads ty).1, (Aliases.unfold_each hwf (by decide) []).2 m hm,
    hlayout]
  constructor
  · rintro (⟨source, depth, c, hlaid, -, hsame⟩ | ⟨source, depth, part, hlaid, halone, hshows⟩)
    · exact ⟨.cls c, hreaches.mpr ⟨source, hlaid.laidOut⟩, rfl, hsame⟩
    · have hpart := hreaches.mpr ⟨source, hlaid.laidOut⟩
      have hsimple := hpart.of_members hty hflat
      rw [Aliases.unfold_simple hsimple fun c heq => halone c heq trivial] at hshows
      obtain ⟨hvalid, n, hn, hsame⟩ := hshows
      rw [hsimple.each] at hn
      exact ⟨part, hpart, hvalid, List.mem_singleton.mp hn ▸ hsame⟩
  · rintro ⟨n, hn, hvalid, hsame⟩
    obtain ⟨source, hlaid⟩ := hreaches.mp hn
    obtain ⟨depth, hwalked⟩ := hlaid.walkedTo (ty.eachDepth maxSubstDepth)
    by_cases hcls : ∃ c, n = .cls c
    · obtain ⟨c, rfl⟩ := hcls
      exact .inl ⟨source, depth, c, hwalked, trivial, hsame⟩
    · refine .inr ⟨source, depth, n, hwalked, fun c heq => absurd ⟨c, heq⟩ hcls, ?_⟩
      have hsimple := hn.of_members hty hflat
      rw [Aliases.unfold_simple hsimple fun c heq => hcls ⟨c, heq⟩]
      exact ⟨hvalid, n, by rw [hsimple.each]; exact List.mem_singleton_self n, hsame⟩

/-- Expanding the aliases of a flat type comes to an end, and the members of the result are those
that its classes lead to, step by step, together with its own. -/
theorem expandAliases_closure :
    (∀ base extra, expandFrom r base (r.aliasWeight + 2 + extra) ty = expand r ty) ∧
    (expandAliases r ty memo).1.WellFormed ∧
    (∀ m : Ty, m.WellFormed → ((expandAliases r ty memo).1.Shows m ↔
      ∃ n, r.Reaches ty n ∧ n.isInvalid = false ∧ m.Same n)) ∧
    ∀ c, .cls c ∈ ty.each → (expandAliases r ty memo).1.Shows (.cls c) := by
  have hreads : memo.ReadsAs r memo := fun _ => rfl
  refine ⟨fun base extra => h.expandFrom_eq base extra ty, ?_,
    fun m => h.shows_expandAliases hready hmemo hflat hwf hty, fun c hc => ?_⟩
  · rw [(expandAliases_unfolds h hreads ty).1]
    exact (h.aliases memo).unfold_wellFormed maxSubstDepth hwf []
  · exact (h.shows_expandAliases hready hmemo hflat hwf hty (hwf.each _ hc)).mpr
      ⟨_, .member hc, rfl, Ty.same_refl _⟩

end Resolver.Counted

/-! Two aliases that name each other, and a class whose other name is one of them. -/

namespace Resolver

def circular : Resolver where
  details? name := if name = "C" then some { alias? := some "A" } else none
  alias? name :=
    if name = "A" then some (.union [.cls (.deferred "B" 0), .nil])
    else if name = "B" then
      some (.union [.cls (.deferred "A" 1), .generic .table [.cls (.deferred "A" 2)]])
    else none
  aliasWeight := 4
  ready := true
  cancelled := false

theorem circular_alias? {name : String} {target : Ty} (h : circular.alias? name = some target) :
    target = .union [.cls (.deferred "B" 0), .nil] ∨
      target = .union [.cls (.deferred "A" 1), .generic .table [.cls (.deferred "A" 2)]] := by
  simp only [circular] at h
  grind

theorem circular_counted : circular.Counted where
  names := by
    refine ⟨["B", "A", "table", "A"], le_rfl, fun name target halias => ?_⟩
    rcases circular_alias? halias with rfl | rfl <;> decide
  wellFormed name target halias := by
    have hcls (name : String) (cell : Nat) : (Ty.cls (.deferred name cell)).WellFormed :=
      .cls_of_docFields rfl
    rcases circular_alias? halias with rfl | rfl
    · exact .pair (hcls "B" 0) (.prim .nil) rfl
    · refine .pair (hcls "A" 1) (.generic (.cls_of_docFields rfl) ?_) rfl
      exact List.forall_mem_singleton.mpr (hcls "A" 2)

theorem circular_flat : circular.IsFlat := by
  intro name target halias m hm
  rcases circular_alias? halias with rfl | rfl
  · rcases List.mem_pair.mp hm with rfl | rfl
    · exact .cls "B" 0
    · exact .prim .nil
  · rcases List.mem_pair.mp hm with rfl | rfl
    · exact .cls "A" 1
    · exact .generic _ _

/-- The class has the members of both aliases. -/
theorem Counted.expandAliases_closure_circular :
    let c : Ty := .cls (.deferred "C" 3)
    let expanded := (expandAliases circular c {}).1
    circular.Counted ∧ circular.ready = true ∧ ClassMemo.Agrees {} circular ∧ circular.IsFlat ∧
    c.WellFormed ∧ c.IsFlat ∧
    (∀ base, expandFrom circular base 6 c = expand circular c) ∧
    expanded.Shows c ∧ expanded.Shows .nil ∧
    expanded.Shows (.generic .table [.cls (.deferred "A" 2)]) ∧ ¬expanded.Shows .string := by
  intro c expanded
  have hwf : c.WellFormed := .cls_of_docFields rfl
  have hflat : c.IsFlat := List.forall_mem_singleton.mpr (.cls "C" 3)
  have hagrees := ClassMemo.agrees_empty circular
  obtain ⟨hend, -, hshows, hself⟩ :=
    circular_counted.expandAliases_closure rfl hagrees circular_flat hwf hflat
  have hgeneric : (Ty.generic .table [.cls (.deferred "A" 2)]).WellFormed :=
    .generic (.cls_of_docFields rfl) (List.forall_mem_singleton.mpr (.cls_of_docFields rfl))
  have hleadsC : circular.Leads "C" (.union [.cls (.deferred "B" 0), .nil]) :=
    .inr ⟨rfl, { alias? := some "A" }, "A", rfl, rfl, by decide, rfl⟩
  have hleadsB : circular.Leads "B"
      (.union [.cls (.deferred "A" 1), .generic .table [.cls (.deferred "A" 2)]]) := .inl rfl
  have hC : circular.Reaches c c := .member (List.mem_singleton_self c)
  have hB : circular.Reaches c (.cls (.deferred "B" 0)) := hC.target hleadsC List.mem_cons_self
  have hnil : circular.Reaches c .nil :=
    hC.target hleadsC (List.mem_cons_of_mem _ (List.mem_singleton_self _))
  have hother : circular.Reaches c (.generic .table [.cls (.deferred "A" 2)]) :=
    hB.target hleadsB (List.mem_cons_of_mem _ (List.mem_singleton_self _))
  refine ⟨circular_counted, rfl, hagrees, circular_flat, hwf, hflat, fun base => hend base 0,
    hself _ (List.mem_singleton_self _), (hshows _ (.prim .nil)).mpr ⟨_, hnil, rfl, Ty.same_refl _⟩,
    (hshows _ hgeneric).mpr ⟨_, hother, rfl, Ty.same_refl _⟩, fun hstring => ?_⟩
  obtain ⟨n, hn, -, hsame⟩ := (hshows _ (.prim .string)).mp hstring
  refine hn.of_members (P := fun n => ¬Ty.string.Same n)
    (List.forall_mem_singleton.mpr Bool.false_ne_true) (fun name target halias m hm => ?_) hsame
  rcases circular_alias? halias with rfl | rfl <;> rcases List.mem_pair.mp hm with rfl | rfl <;>
    exact Bool.false_ne_true

end Resolver

end LuaTypes
