import LuaTypes.Program.Scope
import LuaTypes.Proofs.Places

/-!
What names mean. A name means a declaration of that name, and in a tree-shaped program the parent of
the declaration is the statement or function that introduces it.
-/

namespace LuaTypes

namespace Program

variable {p : Program} {name : String} {decl : NodeId}

/-- A node introduces a declaration, for the statements after it or within itself. -/
inductive Introduces (p : Program) (owner decl : NodeId) : Prop
  | localDef {names values : List NodeId} :
    p.node? owner = some (.localDef names values) → decl ∈ names → Introduces p owner decl
  | localFunc {body : FuncBody} :
    p.node? owner = some (.localFuncDef decl body) → Introduces p owner decl
  | param {node : Node} {body : FuncBody} :
    p.node? owner = some node → node.funcBody? = some body → decl ∈ body.params →
    Introduces p owner decl
  | forNum {start stop body : NodeId} {step? : Option NodeId} :
    p.node? owner = some (.forNum decl start stop step? body) → Introduces p owner decl
  | forIn {vars exprs : List NodeId} {body : NodeId} :
    p.node? owner = some (.forIn vars exprs body) → decl ∈ vars → Introduces p owner decl

theorem Introduces.hasChild {owner : NodeId} (h : p.Introduces owner decl) :
    p.HasChild owner decl := by
  cases h with
  | localDef hnode hmem => exact ⟨_, hnode, List.mem_append_left _ hmem⟩
  | localFunc hnode => exact ⟨_, hnode, List.mem_cons_self⟩
  | @param node body hnode hbody hmem =>
    refine ⟨node, hnode, ?_⟩
    have hparam : decl ∈ body.children := List.mem_append_left _ hmem
    cases node with
    | funcDef _ own | closure own =>
      obtain rfl : own = body := Option.some_inj.mp hbody
      exact hparam
    | localFuncDef _ own | methodDef _ _ _ own =>
      obtain rfl : own = body := Option.some_inj.mp hbody
      exact List.mem_cons_of_mem _ hparam
    | _ => cases hbody
  | forNum hnode => exact ⟨_, hnode, by simp [Node.children]⟩
  | forIn hnode hmem =>
    exact ⟨_, hnode, List.mem_append_left _ (List.mem_append_left _ hmem)⟩

theorem node?_of_declares (h : p.declares name decl = true) : p.node? decl = some (.nameDef name) := by
  unfold declares at h
  cases hnode : p.node? decl with
  | none => simp [hnode] at h
  | some node =>
    simp only [hnode, Option.any_some, beq_iff_eq] at h
    cases node with
    | nameDef own => rw [Option.some_inj.mp h]
    | _ => cases h

theorem lastDeclaring?_spec {defs : List NodeId} (h : p.lastDeclaring? name defs = some decl) :
    p.node? decl = some (.nameDef name) ∧ decl ∈ defs :=
  ⟨node?_of_declares (List.find?_some h), List.mem_reverse.mp (List.mem_of_find?_eq_some h)⟩

theorem declaredBy?_spec {stmt : NodeId} (h : p.declaredBy? name stmt = some decl) :
    p.node? decl = some (.nameDef name) ∧ p.Introduces stmt decl := by
  unfold declaredBy? at h
  cases hnode : p.node? stmt with
  | none => simp [hnode] at h
  | some node =>
    simp only [hnode] at h
    cases node with
    | localDef names values =>
      obtain ⟨hdecl, hmem⟩ := lastDeclaring?_spec h
      exact ⟨hdecl, .localDef hnode hmem⟩
    | localFuncDef own body =>
      simp only at h
      split at h
      · rename_i hdeclares
        obtain rfl : own = decl := Option.some_inj.mp h
        exact ⟨node?_of_declares hdeclares, .localFunc hnode⟩
      · cases h
    | _ => cases h

/-- What is visible from a scope is introduced by it, or by a statement in it. -/
theorem visibleFrom?_spec {scope child : NodeId} (h : p.visibleFrom? name scope child = some decl) :
    p.node? decl = some (.nameDef name) ∧
      ∃ owner, p.Introduces owner decl ∧ (owner = scope ∨ p.HasChild scope owner) := by
  have hparams {node : Node} {body : FuncBody} (hnode : p.node? scope = some node)
      (hbody : node.funcBody? = some body)
      (h : (if child = body.block then p.lastDeclaring? name body.params else none) = some decl) :
      p.node? decl = some (.nameDef name) ∧
        ∃ owner, p.Introduces owner decl ∧ (owner = scope ∨ p.HasChild scope owner) := by
    split at h
    · obtain ⟨hdecl, hmem⟩ := lastDeclaring?_spec h
      exact ⟨hdecl, scope, .param hnode hbody hmem, .inl rfl⟩
    · cases h
  unfold visibleFrom? at h
  cases hnode : p.node? scope with
  | none => simp [hnode] at h
  | some node =>
    simp only [hnode] at h
    cases node with
    | block stmts =>
      simp only at h
      split at h
      · obtain ⟨stmt, hmem, hstmt⟩ := List.exists_of_findSome?_eq_some h
        obtain ⟨hdecl, hintro⟩ := declaredBy?_spec hstmt
        have hstmts : stmt ∈ stmts := (List.takeWhile_sublist _).subset (List.mem_reverse.mp hmem)
        exact ⟨hdecl, stmt, hintro, .inr ⟨_, hnode, hstmts⟩⟩
      · cases h
    | localFuncDef own body =>
      simp only at h
      split at h
      · rename_i hdeclares
        obtain rfl : own = decl := Option.some_inj.mp h
        exact ⟨node?_of_declares hdeclares, scope, .localFunc hnode, .inl rfl⟩
      · exact hparams hnode rfl h
    | funcDef _ body | methodDef _ _ _ body | closure body => exact hparams hnode rfl h
    | forNum var start stop step? body =>
      simp only at h
      split at h
      · rename_i hvar
        obtain rfl : var = decl := Option.some_inj.mp h
        simp only [Bool.and_eq_true] at hvar
        exact ⟨node?_of_declares hvar.2, scope, .forNum hnode, .inl rfl⟩
      · cases h
    | forIn vars exprs body =>
      simp only at h
      split at h
      · obtain ⟨hdecl, hmem⟩ := lastDeclaring?_spec h
        exact ⟨hdecl, scope, .forIn hnode hmem, .inl rfl⟩
      · cases h
    | _ => cases h

theorem firstVisible?_spec {scopes : List NodeId} {child : NodeId}
    (h : p.firstVisible? name child scopes = some decl) :
    p.node? decl = some (.nameDef name) ∧ ∃ scope ∈ scopes, ∃ owner,
      p.Introduces owner decl ∧ (owner = scope ∨ p.HasChild scope owner) := by
  induction scopes generalizing child with
  | nil => cases h
  | cons scope outer ih =>
    rw [firstVisible?] at h
    cases hvisible : p.visibleFrom? name scope child with
    | some found =>
      simp only [hvisible] at h
      obtain rfl : found = decl := Option.some_inj.mp h
      obtain ⟨hdecl, howner⟩ := visibleFrom?_spec hvisible
      exact ⟨hdecl, scope, List.mem_cons_self, howner⟩
    | none =>
      simp only [hvisible] at h
      obtain ⟨hdecl, other, hmem, howner⟩ := ih h
      exact ⟨hdecl, other, List.mem_cons_of_mem _ hmem, howner⟩

/-- A name means a declaration of that name. -/
theorem node?_of_resolve? {site : NodeId} (h : p.resolve? name site = some decl) :
    p.node? decl = some (.nameDef name) :=
  (firstVisible?_spec h).1

end Program

namespace Draft

variable {d : Draft}

/-- The parent of a node is placed in the file of the node. -/
theorem TreeShaped.place?_parent (h : d.TreeShaped) {id parent : NodeId}
    (hparent : d.build.parent? id = some parent) : ∃ place above,
      d.build.place? id = some place ∧ d.build.place? parent = some above ∧ above.file = place.file := by
  obtain ⟨node, hnode, -⟩ := hasChild_of_parent? hparent
  obtain ⟨place, hplace, hparent⟩ := Option.bind_eq_some_iff.mp hparent
  obtain ⟨f, hfile, hlink⟩ := link_of_place? hplace
  rw [hparent] at hlink
  rcases mem_preorderWithin (p := d.build) hlink with hroot | ⟨above, habove, hlink, -⟩
  · cases hroot
  · obtain rfl : parent = above.1 := Option.some_inj.mp hlink
    obtain ⟨offset, habove⟩ := h.place?_of_link hfile habove (by simp [hnode])
    exact ⟨place, _, hplace, habove, rfl⟩

theorem TreeShaped.place?_ancestor (h : d.TreeShaped) {id above : NodeId}
    (habove : above ∈ d.build.ancestors id) : d.build.place? above ≠ none := by
  have hwithin (room : Nat) (id : NodeId) (habove : above ∈ d.build.ancestorsWithin room id) :
      d.build.place? above ≠ none := by
    induction room generalizing id with
    | zero => cases habove
    | succ room ih =>
      rw [Program.ancestorsWithin] at habove
      cases hparent : d.build.parent? id with
      | none => simp [hparent] at habove
      | some parent =>
        simp only [hparent, List.mem_cons] at habove
        rcases habove with rfl | habove
        · obtain ⟨_, place, -, hplace, -⟩ := h.place?_parent hparent
          simp [hplace]
        · exact ih parent habove
  exact hwithin _ id habove

/-- The parent of a declaration that a name means introduces it. -/
theorem TreeShaped.introduces_of_resolve? (h : d.TreeShaped) {name : String} {site decl : NodeId}
    (hresolve : d.build.resolve? name site = some decl) :
    ∃ owner, d.build.parent? decl = some owner ∧ d.build.Introduces owner decl := by
  obtain ⟨hdecl, scope, hscope, owner, hintro, howner⟩ := Program.firstVisible?_spec hresolve
  obtain ⟨place, hplace⟩ := Option.ne_none_iff_exists'.mp (h.place?_ancestor hscope)
  have hbelow := hintro.hasChild
  have hnode : d.build.node? decl ≠ none := by simp [hdecl]
  have hplaced : ∃ place, d.build.place? owner = some place := by
    rcases howner with rfl | howner
    · exact ⟨place, hplace⟩
    · obtain ⟨node, hnode, -⟩ := hbelow
      obtain ⟨offset, hplace⟩ := h.place?_child hplace howner (by simp [hnode])
      exact ⟨_, hplace⟩
  obtain ⟨place, hplace⟩ := hplaced
  obtain ⟨offset, hdecl⟩ := h.place?_child hplace hbelow hnode
  exact ⟨owner, by simp [Program.parent?, hdecl], hintro⟩

end Draft

end LuaTypes
