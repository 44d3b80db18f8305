import LuaTypes.Proofs.Visibility

/-!
Resolution. Going up from a node, one scope after the other, leads to the declarations that are
visible there, and to the nearest of them.
-/

namespace LuaTypes

theorem Node.children_sublist_of_funcBody? {node : Node} {body : FuncBody}
    (h : node.funcBody? = some body) : body.children.Sublist node.children := by
  cases node with
  | funcDef _ own | closure own =>
    obtain rfl : own = body := Option.some_inj.mp h
    exact .refl _
  | localFuncDef _ own | methodDef _ _ _ own =>
    obtain rfl : own = body := Option.some_inj.mp h
    exact .cons _ (.refl _)
  | _ => cases h

namespace Program

variable {p : Program}

theorem Reveals.hasChild {scope child decl : NodeId} (h : p.Reveals scope child decl) :
    p.HasChild scope child := by
  cases h with
  | earlier hnode hsub => exact ⟨_, hnode, hsub.subset (by simp)⟩
  | @param node body hnode hbody hblock =>
    refine ⟨node, hnode, (Node.children_sublist_of_funcBody? hbody).subset ?_⟩
    exact hblock ▸ List.mem_append_right _ (List.mem_singleton_self _)
  | forNum hnode | forIn hnode => exact ⟨_, hnode, by simp [Node.children]⟩
  | ownName hnode hmem => exact ⟨_, hnode, hmem⟩

theorem DeclaresAfter.hasChild {stmt decl : NodeId} (h : p.DeclaresAfter stmt decl) :
    p.HasChild stmt decl := by
  cases h with
  | locals hnode hmem => exact ⟨_, hnode, List.mem_append_left _ hmem⟩
  | localFunc hnode => exact ⟨_, hnode, List.mem_cons_self⟩

end Program

namespace Draft

variable {d : Draft}

/-! Steps up. -/

/-- What holds of a node if it holds of its parent, holds of all nodes. -/
theorem induction_up {P : NodeId → Prop} (h : d.build.Acyclic)
    (step : ∀ id, (∀ parent, d.build.parent? id = some parent → P parent) → P id) (id : NodeId) :
    P id := by
  have hwithin (room : Nat) (id : NodeId) (hfits : d.FitsAbove room id) : P id := by
    induction room generalizing id with
    | zero => exact step id fun parent hparent => absurd (by simp [hparent]) hfits
    | succ room ih => exact step id fun parent hparent => ih parent (hfits parent hparent)
  exact hwithin _ id (fitsAbove h id)

theorem ancestors_eq (h : d.build.Acyclic) (id : NodeId) : d.build.ancestors id
    = (d.build.parent? id).elim [] fun parent => parent :: d.build.ancestors parent := by
  have hfits := fitsAbove h id
  rw [Program.ancestors]
  cases hparent : d.build.parent? id with
  | none => cases d.build.nodes.size <;> simp [Program.ancestorsWithin, hparent]
  | some parent =>
    have hlt : id < d.build.nodes.size := parent?_lt (by simp [hparent])
    obtain ⟨room, hroom⟩ := Nat.exists_eq_succ_of_ne_zero (Nat.ne_zero_of_lt hlt)
    rw [hroom] at hfits
    have hmore := ancestorsWithin_add (hfits parent hparent) 1
    simp only [Program.ancestors, hroom, Program.ancestorsWithin, hparent, Option.elim_some]
    exact congrArg (parent :: ·) hmore.symm

/-- A name means what the parent shows to the node, or else what it means at the parent. -/
theorem resolve?_eq (h : d.build.Acyclic) (name : String) (site : NodeId) :
    d.build.resolve? name site = (d.build.parent? site).bind fun parent =>
      d.build.visibleFrom? name parent site <|> d.build.resolve? name parent := by
  rw [Program.resolve?, ancestors_eq h]
  cases d.build.parent? site <;> rfl

namespace TreeShaped

variable (h : d.TreeShaped)

include h

/-- A node is below its parent in just one place. -/
theorem not_child_twice {id child : NodeId} (hid : d.build.Reached id)
    (hchild : d.build.node? child ≠ none) (node : Node) (hnode : d.build.node? id = some node) :
    ¬[child, child].Sublist node.children := fun htwice =>
  Program.Before.irrefl (h.before_of_children hid hnode htwice .refl .refl hchild hchild)

theorem reached_parent {id parent : NodeId} (hparent : d.build.parent? id = some parent) :
    d.build.Reached parent := by
  obtain ⟨_, place, -, hplace, -⟩ := h.place?_parent hparent
  exact reached_of_place? hplace

section

variable {site : NodeId} (hsite : d.build.node? site ≠ none)

include hsite

/-- A declaration is visible at a node in a scope that is its parent, or in one around that. -/
theorem visibleIn_iff {scope decl : NodeId} : d.build.VisibleIn scope site decl ↔
    ∃ parent, d.build.parent? site = some parent ∧ (scope = parent ∧
      d.build.Reveals parent site decl ∨ d.build.VisibleIn scope parent decl) := by
  constructor
  · rintro ⟨hscope, child, hreveals, hcontains⟩
    rcases Relation.ReflTransGen.cases_tail hcontains with rfl | ⟨parent, habove, hbelow⟩
    · exact ⟨scope, h.parent?_eq hscope hreveals.hasChild hsite, .inl ⟨rfl, hreveals⟩⟩
    · have hreached : d.build.Reached parent :=
        hscope.below (.head hreveals.hasChild habove)
      exact ⟨parent, h.parent?_eq hreached hbelow hsite, .inr ⟨hscope, child, hreveals, habove⟩⟩
  · rintro ⟨parent, hparent, ⟨rfl, hreveals⟩ | ⟨hscope, child, hreveals, habove⟩⟩
    · exact ⟨h.reached_parent hparent, site, hreveals, .refl⟩
    · exact ⟨hscope, child, hreveals, habove.tail (hasChild_of_parent? hparent)⟩

theorem visibleIn_of_parent {scope parent decl : NodeId}
    (hparent : d.build.parent? site = some parent)
    (hvisible : d.build.VisibleIn scope parent decl) : d.build.VisibleIn scope site decl :=
  (h.visibleIn_iff hsite).mpr ⟨parent, hparent, .inr hvisible⟩

theorem visibleIn_parent {name : String} {parent decl : NodeId}
    (hparent : d.build.parent? site = some parent)
    (hfound : d.build.visibleFrom? name parent site = some decl) :
    d.build.VisibleIn parent site decl := by
  have honce := h.not_child_twice (h.reached_parent hparent) hsite
  have hreveals := Program.reveals_of_visibleFrom? (hasChild_of_parent? hparent) honce hfound
  exact (h.visibleIn_iff hsite).mpr ⟨parent, hparent, .inl ⟨rfl, hreveals⟩⟩

theorem shadows_of_parent {parent decl other : NodeId}
    (hparent : d.build.parent? site = some parent)
    (hshadows : d.build.Shadows parent decl other) : d.build.Shadows site decl other := by
  cases hshadows with
  | inner hdecl hother houter =>
    exact .inner (h.visibleIn_of_parent hsite hparent hdecl)
      (h.visibleIn_of_parent hsite hparent hother) houter
  | later hlater => exact .later hlater

end

variable {site : NodeId}

/-- What a name means is visible. -/
theorem visible_of_resolve? {name : String} {decl : NodeId} (hsite : d.build.node? site ≠ none)
    (hresolve : d.build.resolve? name site = some decl) : d.build.Visible site decl := by
  induction site using induction_up h.acyclic with
  | step site ih =>
    rw [resolve?_eq h.acyclic] at hresolve
    obtain ⟨parent, hparent, hresolve⟩ := Option.bind_eq_some_iff.mp hresolve
    cases hfound : d.build.visibleFrom? name parent site with
    | some found =>
      simp only [hfound] at hresolve
      obtain rfl : found = decl := Option.some_inj.mp hresolve
      exact ⟨parent, h.visibleIn_parent hsite hparent hfound⟩
    | none =>
      simp only [hfound] at hresolve
      obtain ⟨scope, hvisible⟩ := ih parent hparent
        (Program.node?_of_hasChild (hasChild_of_parent? hparent)) hresolve
      exact ⟨scope, h.visibleIn_of_parent hsite hparent hvisible⟩

/-- Where a declaration of a name is visible, the name means it or one that shadows it, but for the
own name of a local function, which goes before the parameters. -/
theorem resolve?_of_visible {name : String} {other : NodeId} (hsite : d.build.node? site ≠ none)
    (hvisible : d.build.Visible site other) (hother : d.build.declares name other = true) :
    ∃ decl, d.build.resolve? name site = some decl ∧
      (other = decl ∨ d.build.Shadows site decl other ∨ d.build.IsNameOver decl other) := by
  -- Up from the site, to the first scope that declares the name.
  induction site using induction_up h.acyclic with
  | step site ih =>
    obtain ⟨scope, hscope⟩ := hvisible
    obtain ⟨parent, hparent, hcases⟩ := (h.visibleIn_iff hsite).mp hscope
    have hnode := Program.node?_of_hasChild (hasChild_of_parent? hparent)
    have hreached := h.reached_parent hparent
    have honce := h.not_child_twice hreached hsite
    rw [resolve?_eq h.acyclic, hparent, Option.bind_some]
    cases hfound : d.build.visibleFrom? name parent site with
    | some found =>
      refine ⟨found, rfl, ?_⟩
      rcases hcases with ⟨-, hreveals⟩ | ⟨-, child, hreveals, habove⟩
      · obtain ⟨decl, hdecl, horder⟩ :=
          Program.visibleFrom?_of_reveals hreached hreveals honce hother
        obtain rfl : found = decl := Option.some_inj.mp (hfound.symm.trans hdecl)
        exact horder.imp_right (.imp_left .later)
      · have houter : Relation.TransGen d.build.HasChild scope parent :=
          .head' hreveals.hasChild habove
        exact .inr (.inl (.inner (h.visibleIn_parent hsite hparent hfound) hscope houter))
    | none =>
      rcases hcases with ⟨-, hreveals⟩ | hvisible
      · obtain ⟨decl, hdecl, -⟩ := Program.visibleFrom?_of_reveals hreached hreveals honce hother
        rw [hfound] at hdecl
        cases hdecl
      · obtain ⟨decl, hdecl, horder⟩ := ih parent hparent hnode ⟨scope, hvisible⟩
        exact ⟨decl, hdecl, horder.imp_right (.imp_left (h.shadows_of_parent hsite hparent))⟩

/-- What is visible in a child is before all that the child contains, if it is not the node itself
where a local function is named. -/
theorem before_of_reveals {name : String} {scope child decl : NodeId}
    (hsite : d.build.node? site ≠ none) (hscope : d.build.Reached scope)
    (hreveals : d.build.Reveals scope child decl) (hcontains : d.build.Contains child site)
    (hdecl : d.build.node? decl = some (.nameDef name)) :
    decl = site ∨ d.build.Before decl site := by
  have hdeclNode : d.build.node? decl ≠ none := by simp [hdecl]
  -- A declaration that is itself a child of the scope, before the child.
  have hsibling {node : Node} (hnode : d.build.node? scope = some node)
      (hsub : [decl, child].Sublist node.children) : d.build.Before decl site :=
    h.before_of_children hscope hnode hsub .refl hcontains hdeclNode hsite
  cases hreveals with
  | earlier hnode hsub hafter =>
    exact .inr (h.before_of_children hscope hnode hsub (.single hafter.hasChild) hcontains hdeclNode
      hsite)
  | @param node body hnode hbody hblock hmem =>
    have hsub : [decl, child].Sublist body.children := by
      rw [hblock]
      exact (List.singleton_sublist.mpr hmem).append (.refl [body.block])
    exact .inr (hsibling hnode (hsub.trans (Node.children_sublist_of_funcBody? hbody)))
  | @forNum start stop step? hnode =>
    refine .inr (hsibling hnode (.cons_cons decl ?_))
    simp
  | @forIn vars exprs hnode hmem =>
    refine .inr (hsibling hnode ?_)
    have hvar : [decl].Sublist (vars ++ exprs) :=
      (List.singleton_sublist.mpr hmem).trans (List.sublist_append_left _ _)
    exact hvar.append (.refl [child])
  | @ownName body hnode hmem =>
    rcases List.mem_cons.mp hmem with rfl | hmem
    · rcases Relation.ReflTransGen.cases_head hcontains with rfl | ⟨_, ⟨node, hnode', hmem'⟩, -⟩
      · exact .inl rfl
      · -- A name has no children.
        rw [hdecl] at hnode'
        obtain rfl := Option.some_inj.mp hnode'
        cases hmem'
    · exact .inr (hsibling hnode (.cons_cons decl (List.singleton_sublist.mpr hmem)))

/-- A name means something just where a declaration of it is visible, and then a visible one, which
is in the same file and not after the node. -/
theorem resolution_iff_visible (hsite : d.build.node? site ≠ none) (name : String) :
    ((d.build.resolve? name site).isSome ↔
      ∃ decl, d.build.Visible site decl ∧ d.build.node? decl = some (.nameDef name)) ∧
    ∀ decl, d.build.resolve? name site = some decl →
      d.build.Visible site decl ∧ d.build.node? decl = some (.nameDef name) ∧
      ∃ a b, d.build.place? decl = some a ∧ d.build.place? site = some b ∧
        a.file = b.file ∧ a.offset ≤ b.offset := by
  refine ⟨⟨fun hsome => ?_, ?_⟩, fun decl hresolve => ?_⟩
  · obtain ⟨decl, hresolve⟩ := Option.isSome_iff_exists.mp hsome
    exact ⟨decl, h.visible_of_resolve? hsite hresolve, Program.node?_of_resolve? hresolve⟩
  · rintro ⟨other, hvisible, hother⟩
    have hdeclares : d.build.declares name other = true := by
      simp [Program.declares, hother, Node.declaredName?]
    obtain ⟨decl, hresolve, -⟩ := h.resolve?_of_visible hsite hvisible hdeclares
    exact Option.isSome_of_eq_some hresolve
  · have hdecl := Program.node?_of_resolve? hresolve
    obtain ⟨scope, hvisible⟩ := h.visible_of_resolve? hsite hresolve
    refine ⟨⟨scope, hvisible⟩, hdecl, ?_⟩
    obtain ⟨hscope, child, hreveals, hcontains⟩ := hvisible
    rcases h.before_of_reveals hsite hscope hreveals hcontains hdecl with rfl | hbefore
    · have hreached := hscope.below (.head hreveals.hasChild hcontains)
      obtain ⟨place, hplace⟩ := h.place?_of_reached hreached hsite
      exact ⟨place, place, hplace, hplace, rfl, Nat.le_refl _⟩
    · obtain ⟨a, b, ha, hb, hfile, hlt⟩ := hbefore
      exact ⟨a, b, ha, hb, hfile, Nat.le_of_lt hlt⟩

end TreeShaped

/-- The program `local x = 1  return x`. -/
def localReturned : Draft where
  nodes := #[.nameDef "x", .literal (.number "1"), .localDef [0] [1], .nameRef "x", .ret [3],
    .block [2, 4]]
  files := #[⟨"a.lua", 5, false⟩]

theorem localReturned_treeShaped : localReturned.TreeShaped where
  acyclic := .of_descending (by decide)
  nodup := by decide

/-- The name is visible where it is returned, but not in its own initializer. -/
theorem TreeShaped.resolution_iff_visible_localReturned :
    (∃ decl, localReturned.build.Visible 3 decl ∧
      localReturned.build.node? decl = some (.nameDef "x")) ∧
    ¬∃ decl, localReturned.build.Visible 1 decl ∧
      localReturned.build.node? decl = some (.nameDef "x") := by
  have hiff {site : NodeId} (hsite : localReturned.build.node? site ≠ none) :=
    (localReturned_treeShaped.resolution_iff_visible hsite "x").1
  have hnone : localReturned.build.resolve? "x" 1 = none := by decide
  refine ⟨(hiff (by decide)).mp (by decide), fun hvisible => ?_⟩
  have hsome := (hiff (by decide)).mpr hvisible
  simp [hnone] at hsome

end Draft

end LuaTypes
