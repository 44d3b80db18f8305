import LuaTypes.Proofs.Scopes
import LuaTypes.Proofs.SourceOrder

/-!
Visible declarations. Seen from above, a scope declares names for some of its children and for
whatever these contain. A look-up in one scope finds the last declaration of the name that the scope
has for the child, but the own name of a local function before the parameters.
-/

namespace LuaTypes

namespace Program

variable {p : Program} {name : String}

/-! What is visible where. -/

/-- The statement declares the name for the statements after it. -/
inductive DeclaresAfter (p : Program) (stmt decl : NodeId) : Prop
  | locals {names values : List NodeId} : p.node? stmt = some (.localDef names values) →
    decl ∈ names → DeclaresAfter p stmt decl
  | localFunc {body : FuncBody} : p.node? stmt = some (.localFuncDef decl body) →
    DeclaresAfter p stmt decl

/-- The declaration is visible in a child of the scope: there it is a name of an earlier statement
of a block, a parameter of the function or a variable of the loop whose body the child is, or the
own name of a local function. -/
inductive Reveals (p : Program) (scope child decl : NodeId) : Prop
  | earlier {stmts : List NodeId} {stmt : NodeId} : p.node? scope = some (.block stmts) →
    [stmt, child].Sublist stmts → p.DeclaresAfter stmt decl → Reveals p scope child decl
  | param {node : Node} {body : FuncBody} : p.node? scope = some node →
    node.funcBody? = some body → child = body.block → decl ∈ body.params →
    Reveals p scope child decl
  | forNum {start stop : NodeId} {step? : Option NodeId} :
    p.node? scope = some (.forNum decl start stop step? child) → Reveals p scope child decl
  | forIn {vars exprs : List NodeId} : p.node? scope = some (.forIn vars exprs child) →
    decl ∈ vars → Reveals p scope child decl
  | ownName {body : FuncBody} : p.node? scope = some (.localFuncDef decl body) →
    child ∈ (Node.localFuncDef decl body).children → Reveals p scope child decl

/-- The scope, which is in a file, declares something for the part of it that the site is in. -/
structure VisibleIn (p : Program) (scope site decl : NodeId) : Prop where
  reached : p.Reached scope
  revealed : ∃ child, p.Reveals scope child decl ∧ p.Contains child site

def Visible (p : Program) (site decl : NodeId) : Prop := ∃ scope, p.VisibleIn scope site decl

/-! What shadows what. -/

/-- The node declares these names, in this order. -/
inductive DeclaresAll (p : Program) (owner : NodeId) : List NodeId → Prop
  | locals {names values : List NodeId} : p.node? owner = some (.localDef names values) →
    DeclaresAll p owner names
  | params {node : Node} {body : FuncBody} : p.node? owner = some node →
    node.funcBody? = some body → DeclaresAll p owner body.params
  | vars {vars exprs : List NodeId} {body : NodeId} :
    p.node? owner = some (.forIn vars exprs body) → DeclaresAll p owner vars

/-- The declaration is in a later statement of the block than the other one, or later in a list of
names. -/
inductive Later (p : Program) (decl other : NodeId) : Prop
  | statement {block stmt earlier : NodeId} {stmts : List NodeId} : p.Reached block →
    p.node? block = some (.block stmts) → [earlier, stmt].Sublist stmts →
    p.DeclaresAfter earlier other → p.DeclaresAfter stmt decl → Later p decl other
  | name {owner : NodeId} {names : List NodeId} : p.Reached owner → p.DeclaresAll owner names →
    [other, decl].Sublist names → Later p decl other

/-- The declaration is nearer to the site than the other one: in an inner scope, or later in one
scope. -/
inductive Shadows (p : Program) (site decl other : NodeId) : Prop
  | inner {scope outer : NodeId} : p.VisibleIn scope site decl → p.VisibleIn outer site other →
    Relation.TransGen p.HasChild outer scope → Shadows p site decl other
  | later : p.Later decl other → Shadows p site decl other

/-- The one is the own name of a local function, the other one of its parameters. -/
def IsNameOver (p : Program) (own param : NodeId) : Prop :=
  ∃ scope body, p.Reached scope ∧ p.node? scope = some (.localFuncDef own body) ∧
    param ∈ body.params

/-! Look-ups in a list. -/

/-- A search from the end finds what it looks for, at the element or later. -/
theorem findSome?_reverse_of_mem {α β : Type} {f : α → Option β} {l : List α} {a : α} (ha : a ∈ l)
    (hfound : (f a).isSome) :
    ∃ b found, l.reverse.findSome? f = some found ∧ f b = some found ∧
      (a = b ∨ [a, b].Sublist l) := by
  induction l with
  | nil => cases ha
  | cons head rest ih =>
    rw [List.reverse_cons, List.findSome?_append]
    cases hrest : rest.reverse.findSome? f with
    | some found =>
      rcases List.mem_cons.mp ha with rfl | ha
      · obtain ⟨b, hb, hbound⟩ := List.exists_of_findSome?_eq_some hrest
        refine ⟨b, found, rfl, hbound, .inr (.cons_cons a ?_)⟩
        exact List.singleton_sublist.mpr (List.mem_reverse.mp hb)
      · obtain ⟨b, found', hfound', hb, horder⟩ := ih ha
        obtain rfl : found = found' := Option.some_inj.mp (hrest.symm.trans hfound')
        exact ⟨b, found, rfl, hb, horder.imp_right (.cons head)⟩
    | none =>
      rcases List.mem_cons.mp ha with rfl | ha
      · obtain ⟨found, hfound⟩ := Option.isSome_iff_exists.mp hfound
        exact ⟨a, found, by simp [hfound], hfound, .inl rfl⟩
      · obtain ⟨b, found, hfound, -⟩ := ih ha
        rw [hrest] at hfound
        cases hfound

theorem lastDeclaring?_of_mem {defs : List NodeId} {other : NodeId} (hmem : other ∈ defs)
    (hother : p.declares name other = true) : ∃ decl, p.lastDeclaring? name defs = some decl ∧
      (other = decl ∨ [other, decl].Sublist defs) := by
  have hguard : (Option.guard (p.declares name) other).isSome := by simp [Option.guard, hother]
  obtain ⟨b, decl, hfound, hb, horder⟩ := findSome?_reverse_of_mem hmem hguard
  obtain ⟨rfl, -⟩ := Option.guard_eq_some_iff.mp hb
  exact ⟨b, by rw [lastDeclaring?, ← List.findSome?_guard, hfound], horder⟩

/-- What stands before the child is what the walk over the statements goes through. -/
theorem mem_takeWhile_iff {stmts : List NodeId} {child stmt : NodeId} (hchild : child ∈ stmts)
    (honce : ¬[child, child].Sublist stmts) :
    stmt ∈ stmts.takeWhile (· != child) ↔ [stmt, child].Sublist stmts := by
  induction stmts with
  | nil => cases hchild
  | cons head rest ih =>
    by_cases hhead : head = child
    · subst hhead
      have hrest : head ∉ rest := fun hmem => honce (.cons_cons _ (List.singleton_sublist.mpr hmem))
      constructor
      · simp
      · intro hsub
        cases hsub with
        | cons _ hsub => exact absurd (hsub.subset (by simp)) hrest
        | cons_cons _ hsub => exact absurd (List.singleton_sublist.mp hsub) hrest
    · have hmem : child ∈ rest := (List.mem_cons.mp hchild).resolve_left (Ne.symm hhead)
      have hrest := ih hmem fun hsub => honce (.cons _ hsub)
      rw [List.takeWhile_cons_of_pos (by simpa using hhead), List.mem_cons, hrest]
      constructor
      · rintro (rfl | hsub)
        · exact .cons_cons _ (List.singleton_sublist.mpr hmem)
        · exact .cons _ hsub
      · intro hsub
        cases hsub with
        | cons _ hsub => exact .inr hsub
        | cons_cons _ _ => exact .inl rfl

/-! Look-ups in one scope. -/

theorem declaresAfter_of_declaredBy? {stmt decl : NodeId}
    (h : p.declaredBy? name stmt = some decl) : p.DeclaresAfter stmt decl := by
  rw [declaredBy?] at h
  cases hnode : p.node? stmt with
  | none => simp [hnode] at h
  | some node =>
    simp only [hnode] at h
    cases node with
    | localDef names values => exact .locals hnode (lastDeclaring?_spec h).2
    | localFuncDef own body =>
      obtain ⟨-, hown⟩ := Option.ite_none_right_eq_some.mp h
      exact .localFunc (Option.some_inj.mp hown ▸ hnode)
    | _ => cases h

theorem declaredBy?_of_declaresAfter {stmt other : NodeId} (hstmt : p.Reached stmt)
    (h : p.DeclaresAfter stmt other) (hother : p.declares name other = true) :
    ∃ decl, p.declaredBy? name stmt = some decl ∧ (other = decl ∨ p.Later decl other) := by
  cases h with
  | locals hnode hmem =>
    obtain ⟨decl, hdecl, horder⟩ := lastDeclaring?_of_mem hmem hother
    exact ⟨decl, by simp [declaredBy?, hnode, hdecl],
      horder.imp_right (.name hstmt (.locals hnode))⟩
  | localFunc hnode => exact ⟨other, by simp [declaredBy?, hnode, hother], .inl rfl⟩

variable {scope child : NodeId}

/-- What a look-up in a scope finds is visible in the child. -/
theorem reveals_of_visibleFrom? {decl : NodeId} (hchild : p.HasChild scope child)
    (honce : ∀ node, p.node? scope = some node → ¬[child, child].Sublist node.children)
    (h : p.visibleFrom? name scope child = some decl) : p.Reveals scope child decl := by
  have hparams {node : Node} {body : FuncBody} (hnode : p.node? scope = some node)
      (hbody : node.funcBody? = some body)
      (h : (if child = body.block then p.lastDeclaring? name body.params else none) = some decl) :
      p.Reveals scope child decl := by
    obtain ⟨hblock, hlast⟩ := Option.ite_none_right_eq_some.mp h
    exact .param hnode hbody hblock (lastDeclaring?_spec hlast).2
  obtain ⟨node, hnode, hmem⟩ := hchild
  simp only [visibleFrom?, hnode] at h
  cases node with
  | block stmts =>
    obtain ⟨-, hfound⟩ := Option.ite_none_right_eq_some.mp h
    obtain ⟨stmt, hstmt, hdecl⟩ := List.exists_of_findSome?_eq_some hfound
    have hsub := (mem_takeWhile_iff hmem (honce _ hnode)).mp (List.mem_reverse.mp hstmt)
    exact .earlier hnode hsub (declaresAfter_of_declaredBy? hdecl)
  | localFuncDef own body =>
    simp only at h
    split at h
    · obtain rfl := Option.some_inj.mp h
      exact .ownName hnode hmem
    · exact hparams hnode rfl h
  | funcDef _ body | methodDef _ _ _ body | closure body => exact hparams hnode rfl h
  | forNum var start stop step? body =>
    obtain ⟨hbody, hvar⟩ := Option.ite_none_right_eq_some.mp h
    simp only [Bool.and_eq_true, decide_eq_true_eq] at hbody
    obtain ⟨rfl, -⟩ := hbody
    exact .forNum (Option.some_inj.mp hvar ▸ hnode)
  | forIn vars exprs body =>
    obtain ⟨rfl, hlast⟩ := Option.ite_none_right_eq_some.mp h
    exact .forIn hnode (lastDeclaring?_spec hlast).2
  | _ => cases h

/-- Where a declaration of the name is visible in the child, a look-up in the scope finds it or a
later one, or the own name of a local function. -/
theorem visibleFrom?_of_reveals {other : NodeId} (hscope : p.Reached scope)
    (h : p.Reveals scope child other)
    (honce : ∀ node, p.node? scope = some node → ¬[child, child].Sublist node.children)
    (hother : p.declares name other = true) :
    ∃ decl, p.visibleFrom? name scope child = some decl ∧
      (other = decl ∨ p.Later decl other ∨ p.IsNameOver decl other) := by
  cases h with
  | @earlier stmts stmt hnode hsub hafter =>
    have hchild : child ∈ stmts := hsub.subset (by simp)
    have hstmt : stmt ∈ stmts.takeWhile (· != child) :=
      (mem_takeWhile_iff hchild (honce _ hnode)).mpr hsub
    have hreached : p.Reached stmt := hscope.below (.single ⟨_, hnode, hsub.subset (by simp)⟩)
    obtain ⟨own, hown, hfirst⟩ := declaredBy?_of_declaresAfter hreached hafter hother
    obtain ⟨last, decl, hfound, hlast, horder⟩ :=
      findSome?_reverse_of_mem hstmt (Option.isSome_of_eq_some hown)
    refine ⟨decl, by simp only [visibleFrom?, hnode, if_pos hchild, hfound], ?_⟩
    rcases horder with rfl | horder
    · obtain rfl : own = decl := Option.some_inj.mp (hown.symm.trans hlast)
      exact hfirst.imp_right .inl
    · exact .inr (.inl (.statement hscope hnode (horder.trans (List.takeWhile_sublist _)) hafter
        (declaresAfter_of_declaredBy? hlast)))
  | @param node body hnode hbody hblock hmem =>
    obtain ⟨decl, hdecl, horder⟩ := lastDeclaring?_of_mem hmem hother
    have hlater : other = decl ∨ p.Later decl other :=
      horder.imp_right (.name hscope (.params hnode hbody))
    have hlookup : (if child = body.block then p.lastDeclaring? name body.params else none)
        = some decl := by rw [if_pos hblock, hdecl]
    cases node with
    | localFuncDef own own' =>
      obtain rfl : own' = body := Option.some_inj.mp hbody
      by_cases hown : p.declares name own = true
      · exact ⟨own, by simp only [visibleFrom?, hnode, if_pos hown],
          .inr (.inr ⟨scope, own', hscope, hnode, hmem⟩)⟩
      · refine ⟨decl, ?_, hlater.imp_right .inl⟩
        simp only [visibleFrom?, hnode, if_neg hown, hlookup]
    | funcDef _ own | methodDef _ _ _ own | closure own =>
      obtain rfl : own = body := Option.some_inj.mp hbody
      exact ⟨decl, by simp only [visibleFrom?, hnode, hlookup], hlater.imp_right .inl⟩
    | _ => cases hbody
  | forNum hnode => exact ⟨other, by simp [visibleFrom?, hnode, hother], .inl rfl⟩
  | forIn hnode hmem =>
    obtain ⟨decl, hdecl, horder⟩ := lastDeclaring?_of_mem hmem hother
    exact ⟨decl, by simp [visibleFrom?, hnode, hdecl],
      (horder.imp_right (.name hscope (.vars hnode))).imp_right .inl⟩
  | ownName hnode _ => exact ⟨other, by simp [visibleFrom?, hnode, hother], .inl rfl⟩

end Program

end LuaTypes
