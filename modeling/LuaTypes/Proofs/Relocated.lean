import Mathlib.Data.List.Find
import Mathlib.Data.List.Nodup
import Mathlib.Data.Prod.Basic
import Mathlib.Logic.Equiv.Defs
import LuaTypes.Proofs.SourceOrder
import LuaTypes.Proofs.Scopes

/-!
Programs that differ in the positions of roots and in the order of files. What one program tells of
a node the other one tells of the node that stands for it: the same node and comment, the same
offset, the file of the same path, and the same declarations for names.
-/

namespace LuaTypes

variable {σ : Equiv.Perm NodeId} {τ : Equiv.Perm FileId}

def Place.relocate (σ : Equiv.Perm NodeId) (τ : Equiv.Perm FileId) (place : Place) : Place :=
  ⟨τ place.file, place.parent?.map σ, place.offset⟩

def SourceFile.relocate (σ : Equiv.Perm NodeId) (τ : Equiv.Perm FileId) (file : SourceFile) :
    SourceFile :=
  ⟨τ file.id, file.path, σ file.root, file.stdLib⟩

def DraftFile.relocate (σ : Equiv.Perm NodeId) (file : DraftFile) : DraftFile :=
  ⟨file.path, σ file.root, file.stdLib⟩

theorem DraftFile.relocate_injective (σ : Equiv.Perm NodeId) :
    Function.Injective (DraftFile.relocate σ) := by
  rintro ⟨⟩ ⟨⟩ heq
  simpa [DraftFile.relocate] using heq

namespace Draft

/-- The second draft is the first one with its nodes moved along `σ` and its files along `τ`. Only
blocks move, and none that is a child of a node. -/
structure Relocates (σ : Equiv.Perm NodeId) (τ : Equiv.Perm FileId) (d e : Draft) : Prop where
  size : e.nodes.size = d.nodes.size
  node (id : NodeId) : e.nodes[σ id]? = d.nodes[id]?
  doc (id : NodeId) : e.docs[σ id]? = d.docs[id]?
  file (i : FileId) : e.files[τ i]? = d.files[i]?.map (DraftFile.relocate σ)
  child {id child : NodeId} : d.build.HasChild id child → σ child = child
  block {id : NodeId} : σ id ≠ id → ∃ stmts, d.nodes[id]? = some (.block stmts)

namespace Relocates

variable {d e : Draft} (h : Relocates σ τ d e)

include h

/-- The first draft is the second one moved back. -/
theorem symm : Relocates σ.symm τ.symm e d where
  size := h.size.symm
  node id := by rw [← h.node, σ.apply_symm_apply]
  doc id := by rw [← h.doc, σ.apply_symm_apply]
  file i := by
    obtain ⟨i, rfl⟩ := τ.surjective i
    rw [τ.symm_apply_apply, h.file, Option.map_map]
    simp [Function.comp_def, DraftFile.relocate]
  child := by
    rintro id child ⟨node, hnode, hmem⟩
    have hback : d.build.HasChild (σ.symm id) child :=
      ⟨node, (h.node _).symm.trans (by rwa [σ.apply_symm_apply]), hmem⟩
    rw [σ.symm_apply_eq, h.child hback]
  block {id} hmoved := by
    obtain ⟨id, rfl⟩ := σ.surjective id
    rw [σ.symm_apply_apply] at hmoved
    rw [h.node]
    exact h.block hmoved.symm

/-! Nodes and files. -/

theorem node? (id : NodeId) : e.build.node? (σ id) = d.build.node? id := h.node id

theorem doc? (id : NodeId) : e.build.doc? (σ id) = d.build.doc? id := h.doc id

theorem docClass? (id : NodeId) : e.build.docClass? (σ id) = d.build.docClass? id := by
  rw [Program.docClass?, h.doc?, ← Program.docClass?]

theorem file? (i : FileId) :
    e.build.file? (τ i) = (d.build.file? i).map (SourceFile.relocate σ τ) := by
  simp only [Program.file?, build, Array.getElem?_mapIdx, h.file, Option.map_map]
  rfl

/-- A node that does not move. -/
theorem fixed {id : NodeId} {node : Node} (hnode : d.build.node? id = some node)
    (hblock : ∀ stmts, node ≠ .block stmts) : σ id = id := by
  refine Classical.byContradiction fun hmoved => ?_
  obtain ⟨stmts, hblock'⟩ := h.block hmoved
  exact hblock stmts (Option.some_inj.mp (hnode.symm.trans hblock'))

theorem node?_child {id child : NodeId} (hchild : d.build.HasChild id child) :
    e.build.node? child = d.build.node? child := by
  rw [← h.node? child, h.child hchild]

/-- No node is moved to where a child stands. -/
theorem move_eq_child {id child : NodeId} (hchild : d.build.HasChild id child) (other : NodeId) :
    σ other = child ↔ other = child := by
  rw [← σ.injective.eq_iff (a := other), h.child hchild]

theorem hasChild_iff {id child : NodeId} :
    e.build.HasChild (σ id) child ↔ d.build.HasChild id child := by
  simp only [Program.HasChild, h.node?]

theorem acyclic (hd : d.build.Acyclic) : e.build.Acyclic := by
  intro id hcycle
  refine hd (σ.symm id) (hcycle.lift σ.symm fun a b hchild => ?_)
  have hback : d.build.HasChild (σ.symm a) b := h.symm.hasChild_iff.mpr hchild
  rwa [← h.symm.child hchild] at hback

/-! Places. -/

theorem preorderWithin_move (room : Nat) (parent? : Option NodeId) (id : NodeId) :
    preorderWithin e.nodes room (parent?.map σ) (σ id)
      = (preorderWithin d.nodes room parent? id).map (Prod.map σ (Option.map σ)) := by
  induction room generalizing parent? id with
  | zero => rfl
  | succ room ih =>
    simp only [preorderWithin, h.node]
    cases hnode : d.nodes[id]? with
    | none => rfl
    | some node =>
      have hchild (child : NodeId) (hmem : child ∈ node.children) :
          preorderWithin e.nodes room (some (σ id)) child
            = (preorderWithin d.nodes room (some id) child).map (Prod.map σ (Option.map σ)) := by
        have hfixed : σ child = child := h.child ⟨node, hnode, hmem⟩
        simpa [hfixed] using ih (some id) child
      simp only [List.map_cons, List.map_flatMap]
      rw [List.flatMap_def, List.map_congr_left hchild, ← List.flatMap_def]
      rfl

theorem linksFrom_move (root : NodeId) :
    linksFrom e.nodes (σ root) = (linksFrom d.nodes root).map (Prod.map σ (Option.map σ)) := by
  rw [linksFrom, linksFrom, h.size]
  exact h.preorderWithin_move _ none root

theorem preorder_relocate (file : SourceFile) :
    e.build.preorder (file.relocate σ τ) = (d.build.preorder file).map σ := by
  have hlinks : linksFrom e.build.nodes (σ file.root) = _ := h.linksFrom_move file.root
  simp only [Program.preorder, SourceFile.relocate, hlinks, List.map_map]
  rfl

/-- The files of the second draft with their ids are those of the first one in another order. -/
theorem zipIdx_perm : e.files.toList.zipIdx.Perm
    (d.files.toList.zipIdx.map (Prod.map (DraftFile.relocate σ) τ)) := by
  have hnodup (l : List DraftFile) : l.zipIdx.Nodup :=
    .of_map Prod.snd (by rw [List.zipIdx_map_snd]; exact List.nodup_range')
  have hinjective := (DraftFile.relocate_injective σ).prodMap τ.injective
  refine (List.perm_ext_iff_of_nodup (hnodup _) ((hnodup _).map hinjective)).mpr ?_
  rintro ⟨f, i⟩
  obtain ⟨i, rfl⟩ := τ.surjective i
  simp only [List.mem_map, List.mem_zipIdx_iff_getElem?, Array.getElem?_toList, h.file,
    Option.map_eq_some_iff, Prod.exists, Prod.map_apply, Prod.mk.injEq, τ.injective.eq_iff]
  constructor
  · rintro ⟨f, hf, rfl⟩
    exact ⟨f, i, hf, rfl, rfl⟩
  · rintro ⟨f, _, hf, rfl, rfl⟩
    exact ⟨f, hf, rfl⟩

theorem placements_perm :
    e.placements.Perm (d.placements.map (Prod.map σ (Place.relocate σ τ))) := by
  refine (h.zipIdx_perm.flatMap_right _).trans (.of_eq ?_)
  simp only [placements, List.flatMap_map, List.map_flatMap, Prod.map_fst, Prod.map_snd,
    DraftFile.relocate, h.linksFrom_move, List.zipIdx_map, List.map_map]
  rfl

theorem treeShaped (hd : d.TreeShaped) : e.TreeShaped where
  acyclic := h.acyclic hd.acyclic
  nodup := by
    rw [(h.placements_perm.map Prod.fst).nodup_iff, List.map_map]
    have hfst : Prod.fst ∘ Prod.map σ (Place.relocate σ τ) = σ ∘ Prod.fst := rfl
    rw [hfst, ← List.map_map]
    exact hd.nodup.map σ.injective

variable (hd : d.TreeShaped)

include hd

theorem place?_of_place? {id : NodeId} {place : Place} (hplace : d.build.place? id = some place) :
    e.build.place? (σ id) = some (place.relocate σ τ) := by
  have hmem := h.placements_perm.mem_iff.mpr
    (List.mem_map_of_mem (mem_placements_of_place? hplace))
  obtain ⟨f, hfile, hlink⟩ := mem_placements.mp hmem
  refine (h.treeShaped hd).place?_of_getElem? hfile (List.mem_zipIdx_iff_getElem?.mp hlink) ?_
  rw [h.node?]
  exact node?_of_place? hplace

theorem place? (id : NodeId) :
    e.build.place? (σ id) = (d.build.place? id).map (Place.relocate σ τ) := by
  cases hplace : d.build.place? id with
  | some place => exact h.place?_of_place? hd hplace
  | none =>
    refine Option.eq_none_iff_forall_ne_some.mpr fun place hmoved => ?_
    have hback := h.symm.place?_of_place? (h.treeShaped hd) hmoved
    rw [σ.symm_apply_apply, hplace] at hback
    cases hback

theorem offset (id : NodeId) : e.build.offset (σ id) = d.build.offset id := by
  rw [Program.offset, h.place? hd, Option.elim_map]
  rfl

theorem parent? (id : NodeId) : e.build.parent? (σ id) = (d.build.parent? id).map σ := by
  simp only [Program.parent?, h.place? hd]
  cases d.build.place? id <;> rfl

theorem pathOf (id : NodeId) : e.build.pathOf (σ id) = d.build.pathOf id := by
  simp only [Program.pathOf, Program.fileOf?, h.place? hd]
  cases d.build.place? id with
  | none => rfl
  | some place =>
    simp only [Option.map_some, Option.bind_eq_bind, Option.bind_some, Place.relocate, h.file?,
      Option.elim_map]
    rfl

theorem ancestors (id : NodeId) : e.build.ancestors (σ id) = (d.build.ancestors id).map σ := by
  have hwithin (room : Nat) (id : NodeId) :
      e.build.ancestorsWithin room (σ id) = (d.build.ancestorsWithin room id).map σ := by
    induction room generalizing id with
    | zero => rfl
    | succ room ih =>
      simp only [Program.ancestorsWithin, h.parent? hd]
      cases d.build.parent? id with
      | none => rfl
      | some parent => simp only [Option.map_some, List.map_cons, ih]
  rw [Program.ancestors, Program.ancestors, ← hwithin]
  exact congrArg (e.build.ancestorsWithin · (σ id)) h.size

theorem enclosingMethod? (id : NodeId) :
    e.build.enclosingMethod? (σ id) = (d.build.enclosingMethod? id).map σ := by
  simp only [Program.enclosingMethod?, h.ancestors hd, List.find?_map, Function.comp_def, h.node?]

/-! What names mean. -/

omit hd

variable (name : String)

theorem declares {id child : NodeId} (hchild : d.build.HasChild id child) :
    e.build.declares name child = d.build.declares name child := by
  rw [Program.declares, h.node?_child hchild, ← Program.declares]

theorem lastDeclaring? {id : NodeId} {defs : List NodeId}
    (hdefs : ∀ child ∈ defs, d.build.HasChild id child) :
    e.build.lastDeclaring? name defs = d.build.lastDeclaring? name defs := by
  exact List.find?_congr fun child hmem => h.declares name (hdefs child (List.mem_reverse.mp hmem))

theorem declaredBy? {id stmt : NodeId} (hstmt : d.build.HasChild id stmt) :
    e.build.declaredBy? name stmt = d.build.declaredBy? name stmt := by
  simp only [Program.declaredBy?, h.node?_child hstmt]
  cases hnode : d.build.node? stmt with
  | none => rfl
  | some node =>
    cases node with
    | localDef names values =>
      exact h.lastDeclaring? name fun child hchild => ⟨_, hnode, List.mem_append_left _ hchild⟩
    | localFuncDef own body =>
      simp only [h.declares name ⟨_, hnode, List.mem_cons_self⟩]
    | _ => rfl

/-- What a scope shows to a child it shows after the move to the node that stands for the child. -/
theorem visibleFrom? (scope child : NodeId) :
    e.build.visibleFrom? name (σ scope) (σ child) = d.build.visibleFrom? name scope child := by
  simp only [Program.visibleFrom?, h.node?]
  cases hnode : d.build.node? scope with
  | none => rfl
  | some node =>
    have hbelow {other : NodeId} (hmem : other ∈ node.children) : d.build.HasChild scope other :=
      ⟨node, hnode, hmem⟩
    have hbody {body : FuncBody} (hmem : ∀ other ∈ body.children, other ∈ node.children) :
        (if σ child = body.block then e.build.lastDeclaring? name body.params else none)
          = if child = body.block then d.build.lastDeclaring? name body.params else none := by
      have hparams : e.build.lastDeclaring? name body.params
          = d.build.lastDeclaring? name body.params :=
        h.lastDeclaring? name fun other hother =>
          hbelow (hmem other (List.mem_append_left _ hother))
      have hblock : d.build.HasChild scope body.block :=
        hbelow (hmem _ (List.mem_append_right _ (List.mem_singleton_self _)))
      simp only [hparams, h.move_eq_child hblock]
    cases node with
    | block stmts =>
      by_cases hmem : child ∈ stmts
      · have hdeclared :
            (stmts.takeWhile (· != child)).reverse.findSome? (e.build.declaredBy? name)
              = (stmts.takeWhile (· != child)).reverse.findSome? (d.build.declaredBy? name) := by
          rw [← List.head?_filterMap, ← List.head?_filterMap]
          refine congrArg List.head? (List.filterMap_congr fun stmt hstmt => ?_)
          exact h.declaredBy? name
            (hbelow ((List.takeWhile_sublist _).subset (List.mem_reverse.mp hstmt)))
        simp only [h.child (hbelow hmem), if_pos hmem, hdeclared]
      · have hmoved : σ child ∉ stmts := fun hin =>
          hmem ((h.move_eq_child (hbelow hin) child).mp rfl ▸ hin)
        simp only [if_neg hmem, if_neg hmoved]
    | localFuncDef own body =>
      have hown : d.build.HasChild scope own := hbelow List.mem_cons_self
      simp only [h.declares name hown, hbody fun other hother => List.mem_cons_of_mem _ hother]
    | funcDef _ body | closure body => exact hbody fun other hother => hother
    | methodDef _ _ _ body => exact hbody fun other hother => List.mem_cons_of_mem _ hother
    | forNum var start stop step? body =>
      have hvar : d.build.HasChild scope var := hbelow (by simp [Node.children])
      have hbody : d.build.HasChild scope body := hbelow (by simp [Node.children])
      simp only [h.declares name hvar, h.move_eq_child hbody]
    | forIn vars exprs body =>
      have hvars : e.build.lastDeclaring? name vars = d.build.lastDeclaring? name vars :=
        h.lastDeclaring? name fun other hother => hbelow (by simp [Node.children, hother])
      have hbody : d.build.HasChild scope body := hbelow (by simp [Node.children])
      simp only [hvars, h.move_eq_child hbody]
    | _ => rfl

theorem firstVisible? (scopes : List NodeId) (child : NodeId) :
    e.build.firstVisible? name (σ child) (scopes.map σ)
      = d.build.firstVisible? name child scopes := by
  induction scopes generalizing child with
  | nil => rfl
  | cons scope outer ih =>
    simp only [List.map_cons, Program.firstVisible?, h.visibleFrom?, ih]

/-- A name means the same declaration at a node and at the node that stands for it. -/
theorem resolve? (hd : d.TreeShaped) (site : NodeId) :
    e.build.resolve? name (σ site) = d.build.resolve? name site := by
  rw [Program.resolve?, h.ancestors hd, h.firstVisible?, ← Program.resolve?]

end Relocates
end Draft
end LuaTypes
