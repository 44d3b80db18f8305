import LuaTypes.Proofs.Resolution

/-!
Shadowing. What shadows a declaration comes after it in the source, so of two declarations at most
one shadows the other. A name means the visible declaration that shadows all others, except that the
own name of a local function goes before the parameters in its body.
-/

namespace LuaTypes

namespace Program

variable {p : Program}

/-- The names of a list are children, in the same order. -/
theorem DeclaresAll.sublist {owner : NodeId} {names : List NodeId} (h : p.DeclaresAll owner names) :
    ∃ node, p.node? owner = some node ∧ names.Sublist node.children := by
  cases h with
  | locals hnode => exact ⟨_, hnode, List.sublist_append_left _ _⟩
  | params hnode hbody =>
    exact ⟨_, hnode,
      (List.sublist_append_left _ _).trans (Node.children_sublist_of_funcBody? hbody)⟩
  | vars hnode =>
    exact ⟨_, hnode, (List.sublist_append_left _ _).trans (List.sublist_append_left _ _)⟩

/-- What a scope shows to a child is below the scope. -/
theorem Reveals.contains {scope child decl : NodeId} (h : p.Reveals scope child decl) :
    Relation.TransGen p.HasChild scope decl := by
  cases h with
  | earlier hnode hsub hafter =>
    exact .tail (.single ⟨_, hnode, hsub.subset (by simp)⟩) hafter.hasChild
  | param hnode hbody _ hmem => exact .single (Introduces.param hnode hbody hmem).hasChild
  | forNum hnode => exact .single (Introduces.forNum hnode).hasChild
  | forIn hnode hmem => exact .single (Introduces.forIn hnode hmem).hasChild
  | ownName hnode => exact .single (Introduces.localFunc hnode).hasChild

end Program

namespace Draft

variable {d : Draft}

namespace TreeShaped

variable (h : d.TreeShaped) {name : String} {decl other : NodeId}
  (hdecl : d.build.node? decl ≠ none) (hother : d.build.node? other = some (.nameDef name))

include h hdecl hother

theorem before_of_later (hlater : d.build.Later decl other) : d.build.Before other decl := by
  have hotherNode : d.build.node? other ≠ none := by simp [hother]
  cases hlater with
  | statement hblock hnode hsub hafter hafter' =>
    exact h.before_of_children hblock hnode hsub (.single hafter.hasChild)
      (.single hafter'.hasChild) hotherNode hdecl
  | name howner hnames hsub =>
    obtain ⟨node, hnode, hchildren⟩ := hnames.sublist
    exact h.before_of_children howner hnode (hsub.trans hchildren) .refl .refl hotherNode hdecl

theorem before_of_isNameOver (hname : d.build.IsNameOver other decl) :
    d.build.Before other decl := by
  obtain ⟨scope, body, hscope, hnode, hmem⟩ := hname
  have hsub : [other, decl].Sublist (Node.localFuncDef other body).children :=
    .cons_cons other (List.singleton_sublist.mpr (List.mem_append_left _ hmem))
  exact h.before_of_children hscope hnode hsub .refl .refl (by simp [hother]) hdecl

/-- What shadows a declaration comes after it. -/
theorem before_of_shadows {site : NodeId} (hsite : d.build.node? site ≠ none)
    (hshadows : d.build.Shadows site decl other) : d.build.Before other decl := by
  cases hshadows with
  | later hlater => exact h.before_of_later hdecl hother hlater
  | @inner scope outer hinnerScope houterScope habove =>
    -- The inner scope is in the part of the outer one that the site is in.
    obtain ⟨hscope, child, hreveals, hcontains⟩ := hinnerScope
    obtain ⟨houter, part, hshown, hpart⟩ := houterScope
    obtain ⟨below, hbelow, htoScope⟩ := Relation.TransGen.head'_iff.mp habove
    have hbelowSite : d.build.Contains below site :=
      htoScope.trans (.head hreveals.hasChild hcontains)
    obtain rfl : below = part :=
      h.child_unique houter hbelow hshown.hasChild hbelowSite hpart hsite
    have hscopeNode := Program.node?_of_hasChild hreveals.hasChild
    have hdown : d.build.Before scope decl := by
      rcases h.before_of_contains hscope hreveals.contains.to_reflTransGen hdecl with rfl | hbefore
      · exact absurd hreveals.contains (h.acyclic scope)
      · exact hbefore
    rcases h.before_of_reveals hscopeNode houter hshown htoScope hother with rfl | hbefore
    · exact hdown
    · exact hbefore.trans hdown

end TreeShaped

/-- Where declarations of a name are visible, the name means one of them that shadows all others but
the parameters of the local function whose own name it is. -/
theorem TreeShaped.resolution_nearest (h : d.TreeShaped) {site : NodeId}
    (hsite : d.build.node? site ≠ none) {name : String}
    (hvisible : ∃ decl, d.build.Visible site decl ∧ d.build.node? decl = some (.nameDef name)) :
    ∃ decl, d.build.resolve? name site = some decl ∧
      d.build.Visible site decl ∧ d.build.node? decl = some (.nameDef name) ∧
      ∀ other, d.build.Visible site other → d.build.node? other = some (.nameDef name) →
        other = decl ∨ d.build.Shadows site decl other ∨ d.build.IsNameOver decl other := by
  have hnearest (other : NodeId) (hvisible : d.build.Visible site other)
      (hother : d.build.node? other = some (.nameDef name)) :
      ∃ decl, d.build.resolve? name site = some decl ∧
        (other = decl ∨ d.build.Shadows site decl other ∨ d.build.IsNameOver decl other) :=
    h.resolve?_of_visible hsite hvisible (by simp [Program.declares, hother, Node.declaredName?])
  obtain ⟨first, hfirst, hname⟩ := hvisible
  obtain ⟨decl, hresolve, -⟩ := hnearest first hfirst hname
  refine ⟨decl, hresolve, h.visible_of_resolve? hsite hresolve,
    Program.node?_of_resolve? hresolve, fun other hvisible hother => ?_⟩
  obtain ⟨decl', hresolve', horder⟩ := hnearest other hvisible hother
  obtain rfl : decl = decl' := Option.some_inj.mp (hresolve.symm.trans hresolve')
  exact horder

/-- The program `local x = 1  local x = x  return x`. -/
def declaredAgain : Draft where
  nodes := #[.nameDef "x", .literal (.number "1"), .localDef [0] [1], .nameDef "x", .nameRef "x",
    .localDef [3] [4], .nameRef "x", .ret [6], .block [2, 5, 7]]
  files := #[⟨"a.lua", 8, false⟩]

theorem declaredAgain_treeShaped : declaredAgain.TreeShaped where
  acyclic := .of_descending (by decide)
  nodup := by decide

/-- The first `x` is still visible where `x` is returned, but the second one shadows it. -/
theorem TreeShaped.resolution_nearest_declaredAgain :
    let p := declaredAgain.build
    p.resolve? "x" 6 = some 3 ∧ p.Visible 6 0 ∧ (p.Shadows 6 3 0 ∨ p.IsNameOver 3 0) := by
  intro p
  have hfirst : p.Visible 6 0 := by
    refine ⟨8, ⟨0, _, rfl, .refl⟩, 7, ?_, .single ⟨.ret [6], rfl, List.mem_singleton_self 6⟩⟩
    have hsub : [2, 7].Sublist [2, 5, 7] := by decide
    exact .earlier rfl hsub (.locals rfl (List.mem_singleton_self 0))
  have hsite : p.node? 6 ≠ none := by decide
  obtain ⟨decl, hresolve, -, -, hall⟩ :=
    declaredAgain_treeShaped.resolution_nearest hsite ⟨0, hfirst, rfl⟩
  obtain rfl : decl = 3 := Option.some_inj.mp (hresolve.symm.trans (by decide))
  exact ⟨hresolve, hfirst, (hall 0 hfirst rfl).resolve_left (by decide)⟩

/-- The program `local function f(f) return f end`. -/
def ownParameter : Draft where
  nodes := #[.nameRef "f", .ret [0], .nameDef "f", .nameDef "f", .block [1],
    .localFuncDef 2 ⟨[3], false, 4⟩, .block [5]]
  files := #[⟨"a.lua", 6, false⟩]

theorem ownParameter_treeShaped : ownParameter.TreeShaped where
  acyclic := .of_descending (by decide)
  nodup := by decide

/-- In its body `f` means the function, although the parameter is visible there as well and comes
later. -/
theorem TreeShaped.ownParameter_not_nearest :
    let p := ownParameter.build
    ownParameter.TreeShaped ∧ p.resolve? "f" 0 = some 2 ∧
    p.Visible 0 3 ∧ p.node? 3 = some (.nameDef "f") ∧ p.IsNameOver 2 3 ∧
    ¬((3 : NodeId) = 2 ∨ p.Shadows 0 2 3 ∨ p.IsNameOver 3 2) := by
  intro p
  have hreached : p.Reached 5 :=
    ⟨0, _, rfl, .single ⟨.block [5], rfl, List.mem_singleton_self 5⟩⟩
  have hnode : p.node? 5 = some (.localFuncDef 2 ⟨[3], false, 4⟩) := rfl
  have hparam : p.Visible 0 3 := by
    refine ⟨5, hreached, 4, .param hnode rfl rfl (List.mem_singleton_self 3), ?_⟩
    exact .head ⟨.block [1], rfl, List.mem_singleton_self 1⟩
      (.single ⟨.ret [0], rfl, List.mem_singleton_self 0⟩)
  have hname : p.IsNameOver 2 3 := ⟨5, _, hreached, hnode, List.mem_singleton_self 3⟩
  have hnode' : p.node? 3 ≠ none := by decide
  have hbefore := ownParameter_treeShaped.before_of_isNameOver hnode' rfl hname
  refine ⟨ownParameter_treeShaped, by decide, hparam, rfl, hname, ?_⟩
  rintro (heq | hshadows | hname')
  · cases heq
  · exact Program.Before.irrefl (hbefore.trans
      (ownParameter_treeShaped.before_of_shadows (by decide) rfl (by decide) hshadows))
  · exact Program.Before.irrefl (hbefore.trans
      (ownParameter_treeShaped.before_of_isNameOver (by decide) rfl hname'))

end Draft

end LuaTypes
