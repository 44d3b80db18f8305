import LuaTypes.Proofs.MetClasses
import LuaTypes.Proofs.Shown

/-!
Layouts of unions. Where a class is laid open, the members of what it stands for stand beside it,
and classes among them may be laid open in turn. Unfolding such a layout is a depth-first walk
through it. If no two of its entries get in each other's way, the walk comes to the same names and
shows the same members, whatever the order in which it goes through the entries.
-/

namespace LuaTypes

/-- How deep the members of a type are unfolded, where the type is unfolded down to a depth. -/
def Ty.eachDepth (depth : Nat) : Ty → Nat
  | .union _ => depth - 1
  | _ => depth

theorem Unfolding.mapM_cons (f : Ty → Unfolding Ty) (ty : Ty) (types : List Ty)
    (met : List String) : (ty :: types).mapM f met =
      ((f ty met).1 :: (types.mapM f (f ty met).2).1, (types.mapM f (f ty met).2).2) := by
  rw [List.mapM_cons]
  rfl

namespace Aliases

variable {A : Aliases}

theorem mapM_wellFormed {types : List Ty} (h : ∀ ty ∈ types, ty.WellFormed) (depth : Nat)
    (met : List String) : ∀ ty ∈ (types.mapM (A.unfold depth) met).1, ty.WellFormed :=
  (keeping.mapM types (fun ty hty met _ => ⟨unfold_wellFormed depth (h ty hty) met, trivial⟩)
    met trivial).1

/-- A type is unfolded by unfolding its members in turn. -/
theorem unfold_each {ty : Ty} (h : ty.WellFormed) {depth : Nat} (hdepth : 0 < depth)
    (met : List String) :
    (A.unfold depth ty met).2 = (ty.each.mapM (A.unfold (ty.eachDepth depth)) met).2 ∧
      ∀ m : Ty, m.WellFormed → ((A.unfold depth ty met).1.Shows m ↔
        ∃ member ∈ (ty.each.mapM (A.unfold (ty.eachDepth depth)) met).1, member.Shows m) := by
  obtain ⟨n, rfl⟩ := Nat.exists_eq_add_one.mpr hdepth
  have hsingle (hone : ty.each = [ty]) (hdepth : ty.eachDepth (n + 1) = n + 1) :
      ty.each.mapM (A.unfold (ty.eachDepth (n + 1))) met
        = ([(A.unfold (n + 1) ty met).1], (A.unfold (n + 1) ty met).2) := by
    rw [hone, hdepth, Unfolding.mapM_cons]
    rfl
  cases ty with
  | union members =>
    exact ⟨rfl, fun m hm => Ty.WellFormed.shows_unionAll (mapM_wellFormed h.each n met) hm⟩
  | _ =>
    rw [hsingle rfl rfl]
    exact ⟨rfl, fun m _ => by simp⟩

end Aliases

/-- A union that is laid out, with what is known about its entries. An entry is a part together
with the name of the class that put it there, if a class did, and a depth down to which it is
unfolded. -/
structure Layout (A : Aliases) where
  /-- The names that are met before the union. -/
  met : List String
  /-- The classes that are laid open. -/
  opened : ClassTy → Prop
  Laid : Option String → Nat → Ty → Prop
  positive {source : Option String} {depth : Nat} {part : Ty} : Laid source depth part → 0 < depth
  wellFormed {source : Option String} {depth : Nat} {part : Ty} :
    Laid source depth part → part.WellFormed
  names : ∃ names : List String, ∀ {source : Option String} {depth : Nat} {c : ClassTy},
    Laid source depth (.cls c) → opened c → c.name ∈ names
  spread {source : Option String} {depth : Nat} {c : ClassTy} {target : Ty} :
    Laid source depth (.cls c) → opened c → c.name ∉ met → A.stands c = some target →
    ∀ m ∈ target.each, Laid (some c.name) (target.eachDepth maxSubstDepth) m
  alike {source source' : Option String} {depth depth' : Nat} {c d : ClassTy} :
    Laid source depth (.cls c) → Laid source' depth' (.cls d) → opened c → opened d →
    c.name = d.name → A.stands c = A.stands d
  apart {source source' : Option String} {depth depth' : Nat} {part part' : Ty} :
    Laid source depth part → Laid source' depth' part' → (∀ c, part = .cls c → ¬opened c) →
    (∀ c, part' = .cls c → ¬opened c) → (source, part) ≠ (source', part') →
    ∀ name, Needs A.stands source part name → ¬Uses A.stands source' part' name
  aside {source source' : Option String} {depth depth' : Nat} {part : Ty} {c : ClassTy} :
    Laid source depth part → Laid source' depth' (.cls c) → (∀ c, part = .cls c → ¬opened c) →
    opened c → ¬Needs A.stands source part c.name ∧
      ((A.stands c).isSome = true → ¬Uses A.stands source part c.name)

theorem Ty.WellFormed.nodup_each {ty : Ty} (h : ty.WellFormed) : ty.each.Nodup :=
  h.each_distinct.imp fun {m n} hdiffers heq => by
    have hsame : m.same n = true := heq ▸ same_refl m
    exact Bool.false_ne_true (hdiffers.symm.trans hsame)

namespace Layout

variable {A : Aliases} (L : Layout A)

/-- A part that is unfolded on its own. -/
abbrev Alone (part : Ty) : Prop := ∀ c, part = .cls c → ¬L.opened c

/-- The names that are met when a part is unfolded right after the class that put it there. -/
def start (source : Option String) : List String := source.toList ++ L.met

/-- Unfolding a part on its own adds a name. -/
def Adds (source : Option String) (depth : Nat) (part : Ty) (name : String) : Prop :=
  name ∈ (A.unfold depth part (L.start source)).2 ∧ name ∉ L.start source

/-- The layout shows a member: as a class that is laid open, or in a part. -/
def Shows (m : Ty) : Prop :=
  (∃ source depth c, L.Laid source depth (.cls c) ∧ L.opened c ∧ m.Same (.cls c)) ∨
    ∃ source depth part, L.Laid source depth part ∧ L.Alone part ∧
      (A.unfold depth part (L.start source)).1.Shows m

/-- The walk stands before some parts that a class has put side by side: no part that it has not
come to yet has had any of its names taken away. -/
structure Before (met : List String) (source : Option String) (depth : Nat) (parts : List Ty) :
    Prop where
  laid : ∀ part ∈ parts, L.Laid source depth part
  nodup : parts.Nodup
  later : ∀ name ∈ L.met, name ∈ met
  put : ∀ name, some name = source → name ∈ met
  fresh {source' : Option String} {depth' : Nat} {part : Ty} : L.Laid source' depth' part →
    L.Alone part → (source' = source ∧ part ∈ parts ∨ ∃ name, source' = some name ∧ name ∉ met) →
    ∀ name, Needs A.stands source' part name → name ∈ met → name ∈ L.met

/-- The walk has been to a part. -/
structure Done (met : List String) (shown : List Ty) (source : Option String) (depth : Nat)
    (part : Ty) : Prop where
  opened {c : ClassTy} : part = .cls c → L.opened c → c.name ∈ met ∧
    ∀ m : Ty, m.WellFormed → m.Same (.cls c) → ∃ ty ∈ shown, ty.Shows m
  alone : L.Alone part → (∀ name, L.Adds source depth part name → name ∈ met) ∧
    ∀ m : Ty, m.WellFormed → (A.unfold depth part (L.start source)).1.Shows m →
      ∃ ty ∈ shown, ty.Shows m

/-- The walk has been to some parts that a class has put side by side. -/
structure Walked (source : Option String) (depth : Nat) (parts : List Ty) (before : List String)
    (shown : List Ty) (after : List String) : Prop where
  grows : ∀ name ∈ before, name ∈ after
  /-- What was added are the names of classes that are laid open, and names that come from parts
  among these or put there by a class that was met on the way. -/
  traced : ∀ name ∈ after, name ∈ before ∨
    (∃ source depth c, L.Laid source depth (.cls c) ∧ L.opened c ∧ c.name = name) ∨
    ∃ source' depth' part, L.Laid source' depth' part ∧ L.Alone part ∧
      L.Adds source' depth' part name ∧ (source' = source ∧ part ∈ parts ∨
        ∃ name, source' = some name ∧ name ∈ after ∧ name ∉ before)
  sound : ∀ ty ∈ shown, ∀ m : Ty, m.WellFormed → ty.Shows m → L.Shows m
  done : ∀ part ∈ parts, L.Done after shown source depth part
  /-- The walk has been to whatever a class puts there that it has met on the way. -/
  closed {source : Option String} {depth : Nat} {c : ClassTy} {target : Ty} :
    L.Laid source depth (.cls c) → L.opened c → c.name ∈ after → c.name ∉ before →
    A.stands c = some target →
    ∀ m ∈ target.each, L.Done after shown (some c.name) (target.eachDepth maxSubstDepth) m

variable {L} {source : Option String} {depth : Nat} {part : Ty} {parts : List Ty}
  {met met' before middle after : List String} {shown shown' : List Ty}

theorem Done.imp (h : L.Done met shown source depth part) (hmet : ∀ name ∈ met, name ∈ met')
    (hshown : ∀ m : Ty, m.WellFormed → (∃ ty ∈ shown, ty.Shows m) → ∃ ty ∈ shown', ty.Shows m) :
    L.Done met' shown' source depth part where
  opened {c} hpart hopened := by
    obtain ⟨hmem, hshows⟩ := h.opened hpart hopened
    exact ⟨hmet c.name hmem, fun m hm hsame => hshown m hm (hshows m hm hsame)⟩
  alone halone := by
    obtain ⟨hadds, hshows⟩ := h.alone halone
    exact ⟨fun name hname => hmet name (hadds name hname),
      fun m hm hshow => hshown m hm (hshows m hm hshow)⟩

theorem mem_start {name : String} :
    name ∈ L.start source ↔ some name = source ∨ name ∈ L.met := by
  cases source <;> simp [start]

/-- Unfolding a part on its own adds only names that it uses. -/
theorem uses_of_adds {name : String} (h : L.Adds source depth part name) :
    Uses A.stands source part name := by
  have hknown (name : String) (hname : some name = source) :
      name ∈ L.start source ∧ name ∈ L.start source :=
    ⟨mem_start.mpr (.inl hname), mem_start.mpr (.inl hname)⟩
  obtain ⟨-, added, hadded, hafter, -⟩ := A.unfold_alike source part hknown
    (fun _ _ => Iff.rfl) depth
  obtain ⟨hmem, hnew⟩ := h
  have hadd : name ∈ added := ((hafter name).mp hmem).resolve_left hnew
  exact ⟨fun heq => hnew (mem_start.mpr (.inl heq)), hadded name hadd⟩

/-! The steps of the walk. -/

/-- The walk goes past a part that is unfolded on its own. -/
theorem Before.walked_alone (h : L.Before before source depth (part :: parts))
    (halone : L.Alone part) : L.Walked source depth [part] before
      [(A.unfold depth part before).1] (A.unfold depth part before).2 := by
  have hlaid := h.laid part List.mem_cons_self
  have hknown (name : String) (hname : some name = source) :
      name ∈ L.start source ∧ name ∈ before :=
    ⟨mem_start.mpr (.inl hname), h.put name hname⟩
  have hneeds (name : String) (hname : Needs A.stands source part name) :
      name ∈ L.start source ↔ name ∈ before := by
    rw [mem_start, or_iff_right hname.1]
    exact ⟨h.later name, h.fresh hlaid halone (.inl ⟨rfl, List.mem_cons_self⟩) name hname⟩
  obtain ⟨hval, added, hadded, hstart, hafter⟩ := A.unfold_alike source part hknown hneeds depth
  have hbefore (name : String) (hname : name ∈ L.start source) : name ∈ before :=
    (mem_start.mp hname).elim (h.put name) (h.later name)
  have hadds (name : String) (hname : name ∈ added) (hnew : name ∉ before) :
      L.Adds source depth part name :=
    ⟨(hstart name).mpr (.inr hname), fun hmem => hnew (hbefore name hmem)⟩
  constructor
  case grows => exact fun name hname => (hafter name).mpr (.inl hname)
  case traced =>
    intro name hname
    by_cases hnew : name ∈ before
    · exact .inl hnew
    · have hadd := hadds name (((hafter name).mp hname).resolve_left hnew) hnew
      exact .inr (.inr ⟨source, depth, part, hlaid, halone, hadd, .inl ⟨rfl, List.mem_cons_self⟩⟩)
  case sound =>
    intro ty hty m _ hshows
    rw [List.mem_singleton.mp hty, hval] at hshows
    exact .inr ⟨source, depth, part, hlaid, halone, hshows⟩
  case done =>
    intro other hother
    obtain rfl := List.mem_singleton.mp hother
    refine ⟨fun hpart hopened => absurd hopened (halone _ hpart), fun _ => ⟨?_, ?_⟩⟩
    · rintro name ⟨hmem, hnew⟩
      exact (hafter name).mpr (.inr (((hstart name).mp hmem).resolve_left hnew))
    · exact fun m _ hshows => ⟨_, List.mem_singleton_self _, hval ▸ hshows⟩
  case closed =>
    intro source' depth' c target hc hopened hmem hnew hstands
    -- The part has come to the class, so that the class stands for no alias.
    have hadd := hadds c.name (((hafter c.name).mp hmem).resolve_left hnew) hnew
    have hsome : (A.stands c).isSome = true := by rw [hstands]; rfl
    exact absurd (uses_of_adds hadd) ((L.aside hlaid hc halone hopened).2 hsome)

section

variable {c : ClassTy} (h : L.Before before source depth (.cls c :: parts))

include h

theorem Before.succ_depth : ∃ n, depth = n + 1 :=
  Nat.exists_eq_add_one.mpr (L.positive (h.laid _ List.mem_cons_self))

variable (hopened : L.opened c)

include hopened

/-- A class that is laid open is shown at any rate. -/
theorem Before.shows_opened {m : Ty} (hsame : m.Same (.cls c)) : L.Shows m :=
  .inl ⟨source, depth, c, h.laid _ List.mem_cons_self, hopened, hsame⟩

omit h in
theorem done_opened {ty : Ty} (hmem : c.name ∈ after)
    (hshows : ∀ m : Ty, m.WellFormed → m.Same (.cls c) → ty.Shows m) :
    ∀ part ∈ [Ty.cls c], L.Done after [ty] source depth part := by
  intro part hpart
  obtain rfl := List.mem_singleton.mp hpart
  refine ⟨fun hcls _ => ?_, fun halone => absurd hopened (halone c rfl)⟩
  obtain rfl := Ty.cls.inj hcls
  exact ⟨hmem, fun m hm hsame => ⟨ty, List.mem_singleton_self _, hshows m hm hsame⟩⟩

/-- The walk goes past a class that is laid open, of a name that was met before. -/
theorem Before.walked_met (hmem : c.name ∈ before) : L.Walked source depth [.cls c] before
    [(A.unfold depth (.cls c) before).1] (A.unfold depth (.cls c) before).2 := by
  obtain ⟨n, rfl⟩ := h.succ_depth
  rw [Aliases.unfold_cls_of_mem hmem]
  constructor
  case grows => exact fun _ => id
  case traced => exact fun _ => .inl
  case sound =>
    intro ty hty m _ hshows
    rw [List.mem_singleton.mp hty] at hshows
    exact h.shows_opened hopened (Ty.shows_cls.mp hshows)
  case done => exact done_opened hopened hmem fun _ _ => Ty.shows_cls.mpr
  case closed => exact fun _ _ hmem hnew => absurd hmem hnew

/-- The walk goes past a class that is laid open and stands for no alias. -/
theorem Before.walked_bare (hnew : c.name ∉ before) (hstands : A.stands c = none) :
    L.Walked source depth [.cls c] before [(A.unfold depth (.cls c) before).1]
      (A.unfold depth (.cls c) before).2 := by
  have hlaid := h.laid _ List.mem_cons_self
  obtain ⟨n, rfl⟩ := h.succ_depth
  rw [Aliases.unfold_cls_of_none hnew hstands]
  constructor
  case grows => exact fun _ => List.mem_cons_of_mem _
  case traced =>
    intro name hname
    rcases List.mem_cons.mp hname with rfl | hname
    · exact .inr (.inl ⟨source, n + 1, c, hlaid, hopened, rfl⟩)
    · exact .inl hname
  case sound =>
    intro ty hty m _ hshows
    rw [List.mem_singleton.mp hty] at hshows
    exact h.shows_opened hopened (Ty.shows_cls.mp hshows)
  case done => exact done_opened hopened List.mem_cons_self fun _ _ => Ty.shows_cls.mpr
  case closed =>
    intro source' depth' d target hd hopened' hmem hnew' hstands'
    have hname : c.name = d.name := ((List.mem_cons.mp hmem).resolve_right hnew').symm
    rw [← L.alike hlaid hd hopened hopened' hname, hstands] at hstands'
    cases hstands'

/-- The walk enters a class that is laid open. -/
theorem Before.enter (hnew : c.name ∉ before) {target : Ty} (hstands : A.stands c = some target) :
    L.Before (c.name :: before) (some c.name) (target.eachDepth maxSubstDepth) target.each where
  laid := L.spread (h.laid _ List.mem_cons_self) hopened (fun hmem => hnew (h.later _ hmem)) hstands
  nodup := (A.target hstands).nodup_each
  later name hname := List.mem_cons_of_mem _ (h.later name hname)
  put name hname := by
    obtain rfl := Option.some_inj.mp hname
    exact List.mem_cons_self
  fresh {source' depth' part} hpart halone hlater name hneeds hmem := by
    rcases List.mem_cons.mp hmem with rfl | hmem
    · exact absurd hneeds (L.aside hpart (h.laid _ List.mem_cons_self) halone hopened).1
    · refine h.fresh hpart halone (.inr ?_) name hneeds hmem
      rcases hlater with ⟨rfl, -⟩ | ⟨other, rfl, hother⟩
      · exact ⟨c.name, rfl, hnew⟩
      · exact ⟨other, rfl, fun hmem => hother (List.mem_cons_of_mem _ hmem)⟩

/-- The walk comes back out of a class that is laid open. -/
theorem Before.walked_opened (hnew : c.name ∉ before) {target : Ty}
    (hstands : A.stands c = some target)
    (htarget : L.Walked (some c.name) (target.eachDepth maxSubstDepth) target.each
      (c.name :: before)
      (target.each.mapM (A.unfold (target.eachDepth maxSubstDepth)) (c.name :: before)).1
      (target.each.mapM (A.unfold (target.eachDepth maxSubstDepth)) (c.name :: before)).2) :
    L.Walked source depth [.cls c] before [(A.unfold depth (.cls c) before).1]
      (A.unfold depth (.cls c) before).2 := by
  have hlaid := h.laid _ List.mem_cons_self
  obtain ⟨n, rfl⟩ := h.succ_depth
  have hwf := A.target hstands
  obtain ⟨hmet, hshows⟩ :=
    A.unfold_each hwf (show 0 < maxSubstDepth by decide) (c.name :: before)
  have hty := A.unfold_wellFormed maxSubstDepth hwf (c.name :: before)
  rw [Aliases.unfold_cls_of_some hnew hstands]
  rw [← hmet] at htarget
  generalize (target.each.mapM (A.unfold (target.eachDepth maxSubstDepth))
    (c.name :: before)).1 = shown at hshows htarget
  generalize A.unfold maxSubstDepth target (c.name :: before) = run at hty hshows htarget
  obtain ⟨ty, after⟩ := run
  have hjoin (m : Ty) (hm : m.WellFormed) : (ty.join (.cls c)).Shows m ↔
      (∃ member ∈ shown, member.Shows m) ∨ m.Same (.cls c) := by
    rw [hty.shows_join (L.wellFormed hlaid) hm, hshows m hm, Ty.shows_cls]
  have hmem : c.name ∈ after := htarget.grows _ List.mem_cons_self
  constructor
  case grows => exact fun name hname => htarget.grows name (List.mem_cons_of_mem _ hname)
  case traced =>
    intro name hname
    rcases htarget.traced name hname with hname | hname | ⟨source', depth', part, hpart⟩
    · rcases List.mem_cons.mp hname with rfl | hname
      · exact .inr (.inl ⟨source, n + 1, c, hlaid, hopened, rfl⟩)
      · exact .inl hname
    · exact .inr (.inl hname)
    · obtain ⟨hpart, halone, hadds, hlater⟩ := hpart
      refine .inr (.inr ⟨source', depth', part, hpart, halone, hadds, .inr ?_⟩)
      rcases hlater with ⟨rfl, -⟩ | ⟨other, rfl, hother, hnew'⟩
      · exact ⟨c.name, rfl, hmem, hnew⟩
      · exact ⟨other, rfl, hother, fun hmem => hnew' (List.mem_cons_of_mem _ hmem)⟩
  case sound =>
    intro ty' hty' m hm hshow
    rw [List.mem_singleton.mp hty', hjoin m hm] at hshow
    rcases hshow with ⟨member, hmember, hshow⟩ | hsame
    · exact htarget.sound member hmember m hm hshow
    · exact h.shows_opened hopened hsame
  case done => exact done_opened hopened hmem fun m hm hsame => (hjoin m hm).mpr (.inr hsame)
  case closed =>
    have himp (m : Ty) (hm : m.WellFormed) (hshow : ∃ member ∈ shown, member.Shows m) :
        ∃ member ∈ [ty.join (.cls c)], member.Shows m :=
      ⟨_, List.mem_singleton_self _, (hjoin m hm).mpr (.inl hshow)⟩
    intro source' depth' d target' hd hopened' hmem' hnew' hstands' m hm
    by_cases hname : d.name = c.name
    · rw [L.alike hd hlaid hopened' hopened hname, hstands] at hstands'
      obtain rfl := Option.some_inj.mp hstands'
      rw [hname]
      exact (htarget.done m hm).imp (fun _ => id) himp
    · have hnew' : d.name ∉ c.name :: before := List.not_mem_cons_of_ne_of_not_mem hname hnew'
      exact (htarget.closed hd hopened' hmem' hnew' hstands' m hm).imp (fun _ => id) himp

end

/-- The walk goes on after the first of some parts. -/
theorem Before.rest (h : L.Before before source depth (part :: parts))
    (hwalked : L.Walked source depth [part] before shown after) :
    L.Before after source depth parts where
  laid other hother := h.laid other (List.mem_cons_of_mem _ hother)
  nodup := (List.nodup_cons.mp h.nodup).2
  later name hname := hwalked.grows name (h.later name hname)
  put name hname := hwalked.grows name (h.put name hname)
  fresh {source' depth' part'} hpart halone hlater name hneeds hmem := by
    rcases hwalked.traced name hmem with hmem | ⟨_, _, c, hc, hopened, rfl⟩ | hadds
    · refine h.fresh hpart halone (hlater.imp ?_ ?_) name hneeds hmem
      · exact fun ⟨hsource, hmem⟩ => ⟨hsource, List.mem_cons_of_mem _ hmem⟩
      · exact fun ⟨other, hsource, hnew⟩ =>
          ⟨other, hsource, fun hmem => hnew (hwalked.grows other hmem)⟩
    · exact absurd hneeds (L.aside hpart hc halone hopened).1
    · obtain ⟨source'', depth'', part'', hpart', halone', hadds, hwhere⟩ := hadds
      refine absurd (uses_of_adds hadds) (L.apart hpart hpart' halone halone' ?_ name hneeds)
      -- The part that the name comes from is walked past, and this one is still to come.
      rintro ⟨rfl, rfl⟩
      rcases hwhere with ⟨rfl, hhead⟩ | ⟨other, rfl, hother, hnew⟩
      · rcases hlater with ⟨-, hmem⟩ | ⟨other, rfl, hnew⟩
        · obtain rfl := List.mem_singleton.mp hhead
          exact (List.nodup_cons.mp h.nodup).1 hmem
        · exact hnew (hwalked.grows other (h.put other rfl))
      · rcases hlater with ⟨hsource, -⟩ | ⟨_, hsource, hnew'⟩
        · exact hnew (h.put other hsource)
        · exact hnew' (Option.some_inj.mp hsource ▸ hother)

/-- The walk goes past the first of some parts, and then past the others. -/
theorem Walked.append {ty : Ty} (h : L.Walked source depth [part] before [ty] middle)
    (h' : L.Walked source depth parts middle shown after) :
    L.Walked source depth (part :: parts) before (ty :: shown) after := by
  have hfirst (m : Ty) (_ : m.WellFormed) : (∃ other ∈ [ty], other.Shows m) →
      ∃ other ∈ ty :: shown, other.Shows m := by
    rintro ⟨other, hother, hshows⟩
    exact ⟨other, List.mem_singleton.mp hother ▸ List.mem_cons_self, hshows⟩
  have hrest (m : Ty) (_ : m.WellFormed) : (∃ other ∈ shown, other.Shows m) →
      ∃ other ∈ ty :: shown, other.Shows m := by
    rintro ⟨other, hother, hshows⟩
    exact ⟨other, List.mem_cons_of_mem _ hother, hshows⟩
  constructor
  case grows => exact fun name hname => h'.grows name (h.grows name hname)
  case traced =>
    intro name hname
    rcases h'.traced name hname with hname | hname | ⟨source', depth', part', hpart⟩
    · rcases h.traced name hname with hname | hname | ⟨source', depth', part', hpart⟩
      · exact .inl hname
      · exact .inr (.inl hname)
      · obtain ⟨hpart, halone, hadds, hwhere⟩ := hpart
        refine .inr (.inr ⟨source', depth', part', hpart, halone, hadds, hwhere.imp ?_ ?_⟩)
        · exact fun ⟨hsource, hmem⟩ => ⟨hsource, List.mem_singleton.mp hmem ▸ List.mem_cons_self⟩
        · exact fun ⟨other, hsource, hmem, hnew⟩ => ⟨other, hsource, h'.grows other hmem, hnew⟩
    · exact .inr (.inl hname)
    · obtain ⟨hpart, halone, hadds, hwhere⟩ := hpart
      refine .inr (.inr ⟨source', depth', part', hpart, halone, hadds, hwhere.imp ?_ ?_⟩)
      · exact fun ⟨hsource, hmem⟩ => ⟨hsource, List.mem_cons_of_mem _ hmem⟩
      · exact fun ⟨other, hsource, hmem, hnew⟩ =>
          ⟨other, hsource, hmem, fun hbefore => hnew (h.grows other hbefore)⟩
  case sound =>
    refine List.forall_mem_cons.mpr ⟨h.sound ty (List.mem_singleton_self _), h'.sound⟩
  case done =>
    refine List.forall_mem_cons.mpr ⟨?_, fun other hother => ?_⟩
    · exact (h.done part (List.mem_singleton_self _)).imp h'.grows hfirst
    · exact (h'.done other hother).imp (fun _ => id) hrest
  case closed =>
    intro source' depth' c target hc hopened hmem hnew hstands m hm
    by_cases hmiddle : c.name ∈ middle
    · exact (h.closed hc hopened hmiddle hnew hstands m hm).imp h'.grows hfirst
    · exact (h'.closed hc hopened hmem hmiddle hstands m hm).imp (fun _ => id) hrest

theorem Walked.nil (source : Option String) (depth : Nat) (before : List String) :
    L.Walked source depth [] before [] before where
  grows _ := id
  traced _ := .inl
  sound := List.forall_mem_nil _
  done := List.forall_mem_nil _
  closed _ _ hmem hnew := absurd hmem hnew

/-- The walk goes past all parts. -/
theorem Before.walked (h : L.Before before source depth parts) :
    L.Walked source depth parts before (parts.mapM (A.unfold depth) before).1
      (parts.mapM (A.unfold depth) before).2 := by
  -- The classes that are laid open in turn leave fewer and fewer names to meet.
  obtain ⟨names, hnames⟩ := L.names
  generalize hcount : names.countP (· ∉ before) + 1 = count
  replace hcount : names.countP (· ∉ before) < count := by omega
  induction count generalizing before source depth parts with
  | zero => omega
  | succ count ih =>
    induction parts generalizing before with
    | nil => exact .nil source depth before
    | cons part parts ihrest =>
      have hhead : L.Walked source depth [part] before [(A.unfold depth part before).1]
          (A.unfold depth part before).2 := by
        by_cases halone : L.Alone part
        · exact h.walked_alone halone
        · simp only [Alone, not_forall, not_not] at halone
          obtain ⟨c, rfl, hopened⟩ := halone
          by_cases hmem : c.name ∈ before
          · exact h.walked_met hopened hmem
          · cases hstands : A.stands c with
            | none => exact h.walked_bare hopened hmem hstands
            | some target =>
              have hname := hnames (h.laid _ List.mem_cons_self) hopened
              have hlt : names.countP (· ∉ c.name :: before) < names.countP (· ∉ before) :=
                Expansion.unmet_cons_lt (s := ⟨before, {}⟩) hname hmem {}
              have htarget := ih (h.enter hopened hmem hstands) (by omega)
              exact h.walked_opened hopened hmem hstands htarget
      have hle : names.countP (· ∉ (A.unfold depth part before).2)
          ≤ names.countP (· ∉ before) :=
        List.countP_mono_left fun name _ => by
          simpa using mt (hhead.grows name)
      rw [Unfolding.mapM_cons]
      exact hhead.append (ihrest (h.rest hhead) (by omega))

/-- The walk has met a name at its end. -/
def Met (L : Layout A) (name : String) : Prop :=
  name ∈ L.met ∨ (∃ source depth c, L.Laid source depth (.cls c) ∧ L.opened c ∧ c.name = name) ∨
    ∃ source depth part, L.Laid source depth part ∧ L.Alone part ∧ L.Adds source depth part name

/-- What a walk has met and what it shows, if it has been everywhere. -/
theorem Walked.whole (h : L.Walked none depth parts L.met shown after)
    (hdone : ∀ source depth part, L.Laid source depth part → L.Done after shown source depth part) :
    (∀ name, name ∈ after ↔ L.Met name) ∧
      ∀ m : Ty, m.WellFormed → ((∃ ty ∈ shown, ty.Shows m) ↔ L.Shows m) := by
  refine ⟨fun name => ⟨fun hname => ?_, ?_⟩, fun m hm => ⟨?_, ?_⟩⟩
  · rcases h.traced name hname with hname | hname | ⟨source, depth, part, hpart, halone, hadds, -⟩
    · exact .inl hname
    · exact .inr (.inl hname)
    · exact .inr (.inr ⟨source, depth, part, hpart, halone, hadds⟩)
  · rintro (hname | ⟨source, depth, c, hc, hopened, rfl⟩ | ⟨source, depth, part, hpart⟩)
    · exact h.grows name hname
    · exact ((hdone _ _ _ hc).opened rfl hopened).1
    · exact ((hdone _ _ _ hpart.1).alone hpart.2.1).1 name hpart.2.2
  · rintro ⟨ty, hty, hshows⟩
    exact h.sound ty hty m hm hshows
  · rintro (⟨source, depth, c, hc, hopened, hsame⟩ | ⟨source, depth, part, hpart⟩)
    · exact ((hdone _ _ _ hc).opened rfl hopened).2 m hm hsame
    · exact ((hdone _ _ _ hpart.1).alone hpart.2.1).2 m hm hpart.2.2

end Layout

end LuaTypes
