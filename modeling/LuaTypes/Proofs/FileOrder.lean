import Mathlib.Data.List.Perm.Basic
import LuaTypes.Proofs.RelocatedMembers

/-!
Indexing in any order of the files. If no global is tagged with two classes, the members of a
program do not depend on the order in which its files were added, up to the ids of the files.
-/

namespace LuaTypes

/-- A file before it is added: its path, and the statements that its root will have. -/
structure FileSource where
  path : String
  stdLib : Bool
  stmts : List NodeId
  deriving DecidableEq

namespace Draft

/-- The draft of the files, added in this order, over the nodes with their comments. -/
def ofFiles (nodes : Array Node) (docs : Std.HashMap NodeId Doc) (files : List FileSource) :
    Draft :=
  files.foldl (fun d f => ((file f.path f.stdLib f.stmts).run d).2) { nodes, docs }

section

variable {nodes : Array Node} {docs : Std.HashMap NodeId Doc} {fs gs : List FileSource}

theorem ofFiles_eq (nodes : Array Node) (docs : Std.HashMap NodeId Doc) (fs : List FileSource) :
    ofFiles nodes docs fs =
      { nodes := nodes ++ (fs.map fun f => Node.block f.stmts).toArray
        docs
        files := (fs.mapIdx fun i f => ⟨f.path, nodes.size + i, f.stdLib⟩).toArray } := by
  have hfold (fs : List FileSource) (d : Draft) :
      fs.foldl (fun d f => ((file f.path f.stdLib f.stmts).run d).2) d =
        { nodes := d.nodes ++ (fs.map fun f => Node.block f.stmts).toArray
          docs := d.docs
          files := d.files ++
            (fs.mapIdx fun i f => ⟨f.path, d.nodes.size + i, f.stdLib⟩).toArray } := by
    induction fs generalizing d with
    | nil => simp
    | cons f fs ih =>
      have hfile : ((file f.path f.stdLib f.stmts).run d).2 =
          { d with
            nodes := d.nodes.push (.block f.stmts)
            files := d.files.push ⟨f.path, d.nodes.size, f.stdLib⟩ } := rfl
      rw [List.foldl_cons, ih, hfile]
      simp [List.mapIdx_cons, Nat.add_comm, Nat.add_left_comm]
  rw [ofFiles, hfold]
  simp

/-- The place in the second order of each place in the first one. -/
def positions (h : fs.Perm gs) : Equiv.Perm FileId where
  toFun i := if hi : i < fs.length then (h.idxBij ⟨i, hi⟩).val else i
  invFun i := if hi : i < gs.length then (h.symm.idxBij ⟨i, hi⟩).val else i
  left_inv i := by
    by_cases hi : i < fs.length
    · simp only [dif_pos hi, Fin.is_lt, dif_pos, Fin.eta, h.idxBij_symm_idxBij]
    · have hi' : ¬i < gs.length := h.length_eq ▸ hi
      simp only [dif_neg hi, dif_neg hi']
  right_inv i := by
    by_cases hi : i < gs.length
    · simp only [dif_pos hi, Fin.is_lt, dif_pos, Fin.eta, h.idxBij_idxBij_symm]
    · have hi' : ¬i < fs.length := h.length_eq ▸ hi
      simp only [dif_neg hi, dif_neg hi']

theorem positions_of_le (h : fs.Perm gs) {i : FileId} (hi : fs.length ≤ i) : positions h i = i :=
  dif_neg (Nat.not_lt.mpr hi)

theorem getElem?_positions (h : fs.Perm gs) (i : FileId) : gs[positions h i]? = fs[i]? := by
  by_cases hi : i < fs.length
  · have hpos : positions h i = (h.idxBij ⟨i, hi⟩).val := dif_pos hi
    rw [hpos, List.getElem?_eq_getElem hi, List.getElem?_eq_getElem (h.idxBij ⟨i, hi⟩).isLt]
    exact congrArg some (h.getElem_idxBij_eq_getElem ⟨i, hi⟩)
  · have hi := Nat.not_lt.mp hi
    rw [positions_of_le h hi, List.getElem?_eq_none hi, List.getElem?_eq_none (h.length_eq ▸ hi)]

theorem positions_lt (h : fs.Perm gs) {i : FileId} (hi : i < fs.length) :
    positions h i < fs.length := by
  have hget := getElem?_positions h i
  rw [List.getElem?_eq_getElem hi] at hget
  exact h.length_eq ▸ (List.getElem?_eq_some_iff.mp hget).1

@[simp] theorem not_add_lt (base : Nat) (i : FileId) : ¬base + i < base :=
  Nat.not_lt.mpr (Nat.le_add_right base i)

/-- The roots that stand after `base` nodes, moved along with their files. -/
def rootsAlong (base : Nat) (τ : Equiv.Perm FileId) : Equiv.Perm NodeId where
  toFun id := if id < base then id else base + τ (id - base)
  invFun id := if id < base then id else base + τ.symm (id - base)
  left_inv id := by
    rcases Nat.lt_or_ge id base with hid | hid
    · simp [hid]
    · obtain ⟨i, rfl⟩ := Nat.exists_eq_add_of_le hid
      simp
  right_inv id := by
    rcases Nat.lt_or_ge id base with hid | hid
    · simp [hid]
    · obtain ⟨i, rfl⟩ := Nat.exists_eq_add_of_le hid
      simp

@[simp] theorem rootsAlong_of_lt {base : Nat} {τ : Equiv.Perm FileId} {id : NodeId} (h : id < base) :
    rootsAlong base τ id = id := if_pos h

@[simp] theorem rootsAlong_add (base : Nat) (τ : Equiv.Perm FileId) (i : FileId) :
    rootsAlong base τ (base + i) = base + τ i := by
  simp [rootsAlong]

/-- No comment, no child and no statement of a file stands where the files get their roots. -/
structure RootsFree (nodes : Array Node) (docs : Std.HashMap NodeId Doc) (files : List FileSource) :
    Prop where
  comment : ∀ i < files.length, docs[nodes.size + i]? = none
  child : ∀ node ∈ nodes, ∀ i < files.length, nodes.size + i ∉ node.children
  stmt : ∀ file ∈ files, ∀ i < files.length, nodes.size + i ∉ file.stmts

theorem ofFiles_node (id : NodeId) :
    (ofFiles nodes docs fs).nodes[id]? =
      if id < nodes.size then nodes[id]? else fs[id - nodes.size]?.map fun f => .block f.stmts := by
  simp only [ofFiles_eq, Array.getElem?_append]
  simp

theorem ofFiles_file (i : FileId) :
    (ofFiles nodes docs fs).files[i]?
      = fs[i]?.map fun f => ⟨f.path, nodes.size + i, f.stdLib⟩ := by
  simp [ofFiles_eq]

/-- The files in another order are the files with their ids and their roots moved. -/
theorem relocates_ofFiles (horder : fs.Perm gs) (hfree : RootsFree nodes docs fs) :
    Relocates (rootsAlong nodes.size (positions horder)) (positions horder)
      (ofFiles nodes docs fs) (ofFiles nodes docs gs) where
  size := by simp [ofFiles_eq, horder.length_eq]
  node id := by
    rw [ofFiles_node, ofFiles_node]
    rcases Nat.lt_or_ge id nodes.size with hid | hid
    · simp [hid]
    · obtain ⟨i, rfl⟩ := Nat.exists_eq_add_of_le hid
      simp [getElem?_positions]
  doc id := by
    simp only [ofFiles_eq]
    rcases Nat.lt_or_ge id nodes.size with hid | hid
    · rw [rootsAlong_of_lt hid]
    · obtain ⟨i, rfl⟩ := Nat.exists_eq_add_of_le hid
      rw [rootsAlong_add]
      rcases Nat.lt_or_ge i fs.length with hi | hi
      · rw [hfree.comment i hi, hfree.comment _ (positions_lt horder hi)]
      · rw [positions_of_le horder hi]
  file i := by
    rw [ofFiles_file, ofFiles_file, getElem?_positions, Option.map_map]
    simp [Function.comp_def, DraftFile.relocate]
  child := by
    rintro id child ⟨node, hnode, hmem⟩
    rcases Nat.lt_or_ge child nodes.size with hchild | hchild
    · exact rootsAlong_of_lt hchild
    · obtain ⟨i, rfl⟩ := Nat.exists_eq_add_of_le hchild
      -- Only positions past all roots are left for a child after the nodes.
      have hi : fs.length ≤ i := by
        refine Nat.le_of_not_lt fun hi => ?_
        rw [Program.node?, build, ofFiles_node] at hnode
        split at hnode
        · exact hfree.child node (Array.mem_of_getElem? hnode) i hi hmem
        · obtain ⟨f, hf, rfl⟩ := Option.map_eq_some_iff.mp hnode
          exact hfree.stmt f (List.mem_of_getElem? hf) i hi hmem
      rw [rootsAlong_add, positions_of_le horder hi]
  block {id} hmoved := by
    rcases Nat.lt_or_ge id nodes.size with hid | hid
    · exact absurd (rootsAlong_of_lt hid) hmoved
    · obtain ⟨i, rfl⟩ := Nat.exists_eq_add_of_le hid
      have hi : i < fs.length := by
        refine Nat.lt_of_not_le fun hi => hmoved ?_
        rw [rootsAlong_add, positions_of_le horder hi]
      exact ⟨fs[i].stmts, by simp [ofFiles_node, hi]⟩

end

end Draft

/-- In whatever order the files of a program are added, each class has the same members, up to the
ids of the files, and those of one file come in the same order. Only a global that is tagged with
two classes could make a difference. -/
theorem Index.membersOf_reordered {nodes : Array Node} {docs : Std.HashMap NodeId Doc}
    {fs gs : List FileSource} (horder : fs.Perm gs) (hfree : Draft.RootsFree nodes docs fs)
    (htree : (Draft.ofFiles nodes docs fs).TreeShaped)
    (honce : Collecting.TaggedOnce (Draft.ofFiles nodes docs fs).build) :
    ∃ τ : Equiv.Perm FileId, (∀ i, gs[τ i]? = fs[i]?) ∧ ∀ cls,
      ((ofProgram (Draft.ofFiles nodes docs gs).build).membersOf cls).Perm
        (((ofProgram (Draft.ofFiles nodes docs fs).build).membersOf cls).map (.refile τ)) ∧
      ∀ i, ((ofProgram (Draft.ofFiles nodes docs gs).build).membersOf cls).filter (·.file = τ i)
        = (((ofProgram (Draft.ofFiles nodes docs fs).build).membersOf cls).filter
            (·.file = i)).map (.refile τ) := by
  have hmoved := Draft.relocates_ofFiles horder hfree
  exact ⟨Draft.positions horder, Draft.getElem?_positions horder, fun cls =>
    ⟨hmoved.membersOf_perm htree honce cls, hmoved.membersOf_filter htree honce cls⟩⟩

namespace Draft

/-- The nodes of `a = {}` and of `function a.m() end`. -/
def methodApart : Array Node :=
  #[.nameRef "a", .table [], .assign [0] [1],
    .nameRef "a", .block [], .methodDef 3 "m" false ⟨[], false, 4⟩]

/-- A comment on the assignment tags the global with the class `A`. -/
def methodApartDocs : Std.HashMap NodeId Doc :=
  Std.HashMap.insert ∅ 2 { class? := some { name := "A" } }

/-- The assignment and the method, in a file each. -/
def methodApartFiles : List FileSource := [⟨"a.lua", false, [2]⟩, ⟨"b.lua", false, [5]⟩]

theorem methodApart_rootsFree : RootsFree methodApart methodApartDocs methodApartFiles where
  comment i hi := by
    have hne : ¬(2 : Nat) = methodApart.size + i := by
      simp only [methodApart, List.size_toArray, List.length_cons, List.length_nil]
      omega
    simp [methodApartDocs, hne]
  child := by decide
  stmt := by decide

theorem methodApart_treeShaped :
    (ofFiles methodApart methodApartDocs methodApartFiles).TreeShaped where
  acyclic := .of_descending (by decide)
  nodup := by decide

theorem methodApart_taggedOnce :
    Collecting.TaggedOnce (ofFiles methodApart methodApartDocs methodApartFiles).build := by
  have hclass {name cls : String}
      (h : Collecting.Tagged (ofFiles methodApart methodApartDocs methodApartFiles).build name cls) :
      cls = "A" := by
    obtain ⟨file, -, id, -, htag, -⟩ := h
    obtain ⟨tag, hclass, rfl⟩ := Option.map_eq_some_iff.mp htag
    obtain ⟨doc, hdoc, hclass⟩ := Option.bind_eq_some_iff.mp hclass
    simp only [Program.doc?, build, ofFiles_eq, methodApartDocs, Std.HashMap.getElem?_insert,
      Std.HashMap.getElem?_empty] at hdoc
    split at hdoc
    · obtain rfl := Option.some_inj.mp hdoc
      obtain rfl := Option.some_inj.mp hclass
      rfl
    · cases hdoc
  intro name cls cls' h h'
  rw [hclass h, hclass h']

/-- The method is a member of the class that its receiver is tagged with. -/
theorem methodApart_filed : ∃ m ∈ (Index.ofProgram
    (ofFiles methodApart methodApartDocs methodApartFiles).build).membersOf "A", m.name = "m" := by
  let p := (ofFiles methodApart methodApartDocs methodApartFiles).build
  have htagged : Collecting.Tagged p "a" "A" := by
    refine ⟨⟨0, "a.lua", 6, false⟩, by decide, 2, by decide, ?_, 0, [], [1], by decide, by decide⟩
    simp [p, Program.docClass?, Program.doc?, build, ofFiles_eq, methodApartDocs]
  have hclass : p.receiverClass? (Collecting.ofTags p).taggedGlobals 3 = some "A" := by
    have hused : p.usedName? 3 = some "a" := by decide
    have hresolve : p.resolve? "a" 3 = none := by decide
    have htag : (Collecting.ofTags p).taggedGlobals["a"]? = some "A" :=
      methodApart_taggedOnce.getElem?_eq_some_iff.mpr htagged
    simp [Program.receiverClass?, Program.variableClass?, hused, hresolve, selfWord,
      Std.HashMap.getD_eq_getD_getElem?, htag]
  have hnode : p.node? 5 = some (.methodDef 3 "m" false ⟨[], false, 4⟩) := by decide
  have hmember : ∃ m ∈ Collecting.nodeMembers p ⟨1, "b.lua", 7, false⟩
      (Collecting.ofTags p).taggedGlobals 5, m.className = "A" ∧ m.name = "m" := by
    simp [Collecting.nodeMembers, hnode, hclass, Collecting.declare]
  obtain ⟨m, hm, hcls, hname⟩ := hmember
  exact ⟨m, Index.mem_membersOf_ofProgram.mpr ⟨hcls, ⟨1, "b.lua", 7, false⟩, by decide, 5,
    by decide, List.mem_append_right _ hm⟩, hname⟩

end Draft

/-- Whichever file is added first, the class `A` has the same members, and the method is one. -/
theorem Index.membersOf_reordered_methodApart : (∃ m ∈ (ofProgram (Draft.ofFiles Draft.methodApart
      Draft.methodApartDocs Draft.methodApartFiles).build).membersOf "A", m.name = "m") ∧
    ∃ τ : Equiv.Perm FileId,
    (∀ i, Draft.methodApartFiles.reverse[τ i]? = Draft.methodApartFiles[i]?) ∧
    ((ofProgram (Draft.ofFiles Draft.methodApart Draft.methodApartDocs
      Draft.methodApartFiles.reverse).build).membersOf "A").Perm
      (((ofProgram (Draft.ofFiles Draft.methodApart Draft.methodApartDocs
        Draft.methodApartFiles).build).membersOf "A").map (.refile τ)) := by
  obtain ⟨τ, hfiles, hmembers⟩ := membersOf_reordered (List.reverse_perm _).symm
    Draft.methodApart_rootsFree Draft.methodApart_treeShaped Draft.methodApart_taggedOnce
  exact ⟨Draft.methodApart_filed, τ, hfiles, (hmembers "A").1⟩

end LuaTypes
