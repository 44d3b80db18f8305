import LuaTypes.Proofs.Filed
import LuaTypes.Proofs.Relocated

/-!
What programs declare that differ in the positions of roots and in the order of files. Receivers
name the same classes in both, so where no global is tagged with two classes each file declares the
same members, in the same order.
-/

namespace LuaTypes

/-- The declaration in the file that stands for its own. -/
def MemberDecl.refile (τ : Equiv.Perm FileId) (d : MemberDecl) : MemberDecl :=
  { d with file := τ d.file }

namespace Collecting

variable {p : Program} {id : NodeId} {name cls : String}

/-- A comment somewhere in the files tags the global with the class. -/
def Tagged (p : Program) (name cls : String) : Prop :=
  ∃ file ∈ p.files.toList, ∃ id ∈ p.preorder file, Tags p id name cls

/-- No global is tagged with two different classes. -/
def TaggedOnce (p : Program) : Prop :=
  ∀ ⦃name cls cls' : String⦄, Tagged p name cls → Tagged p name cls' → cls = cls'

/-- Collecting at a node keeps the globals that are tagged. -/
theorem contains_tags {c : Collecting} (h : c.taggedGlobals.contains name = true)
    (file : SourceFile) (id : NodeId) : (c.tags p file id).taggedGlobals.contains name = true := by
  have htag (cls : DocClass) : (c.tagClass p file id cls).taggedGlobals.contains name = true := by
    simp only [tagClass]
    split
    · split <;> simp [h]
    · exact h
  unfold tags
  split
  · exact h
  · rename_i doc hdoc
    cases hclass : doc.class? with
    | none => simpa [hclass] using h
    | some cls => simpa [hclass] using htag cls

/-- Collecting at a tag tags the global. -/
theorem Tags.contains_tags (h : Tags p id name cls) (c : Collecting) (file : SourceFile) :
    (c.tags p file id).taggedGlobals.contains name = true := by
  obtain ⟨htag, target, targets, values, hnode, hname⟩ := h
  obtain ⟨tag, hclass, -⟩ := Option.map_eq_some_iff.mp htag
  obtain ⟨doc, hdoc, hclass⟩ := Option.bind_eq_some_iff.mp hclass
  simp [tags, hdoc, hclass, tagClass, hnode, hname]

theorem contains_foldl_tags {c : Collecting} (h : c.taggedGlobals.contains name = true)
    (sites : List (SourceFile × NodeId)) :
    (sites.foldl (fun c site => tags p site.1 c site.2) c).taggedGlobals.contains name = true :=
  List.foldlRecOn (motive := fun c : Collecting => c.taggedGlobals.contains name = true) sites _ h
    fun _ hc site _ => contains_tags hc site.1 site.2

theorem Tagged.contains_ofTags (h : Tagged p name cls) :
    (ofTags p).taggedGlobals.contains name = true := by
  obtain ⟨file, hfile, id, hid, htags⟩ := h
  let sites := p.files.toList.flatMap fun file => (p.preorder file).map (file, ·)
  have hfold : ofTags p = sites.foldl (fun c site => tags p site.1 c site.2) {} := by
    simp only [sites, List.foldl_flatMap, List.foldl_map]
    rfl
  have hsite : (file, id) ∈ sites :=
    List.mem_flatMap.mpr ⟨file, hfile, List.mem_map.mpr ⟨id, hid, rfl⟩⟩
  obtain ⟨before, after, hsites⟩ := List.append_of_mem hsite
  rw [hfold, hsites, List.foldl_append, List.foldl_cons]
  exact contains_foldl_tags (htags.contains_tags _ file) after

/-- The class of a global that is tagged with one class only. -/
theorem TaggedOnce.getElem?_eq_some_iff (h : TaggedOnce p) :
    (ofTags p).taggedGlobals[name]? = some cls ↔ Tagged p name cls := by
  constructor
  · exact (sound_ofTags p).tagged
  · intro htagged
    obtain ⟨other, hother⟩ := Option.isSome_iff_exists.mp
      (Std.HashMap.isSome_getElem?_eq_contains.trans htagged.contains_ofTags)
    rw [hother, h ((sound_ofTags p).tagged hother) htagged]

end Collecting

theorem Program.hasChild_of_receiver? {p : Program} {method receiver : NodeId}
    (h : p.receiver? method = some receiver) : p.HasChild method receiver := by
  unfold Program.receiver? at h
  split at h
  · rename_i hnode
    obtain rfl := Option.some_inj.mp h
    exact ⟨_, hnode, List.mem_cons_self⟩
  · cases h

theorem Program.hasChild_of_namedFields {p : Program} {table field : NodeId} {name : String}
    (h : (field, name) ∈ p.namedFields table) : p.HasChild table field := by
  unfold Program.namedFields at h
  split at h
  · rename_i fields hnode
    obtain ⟨other, hmem, hother⟩ := List.mem_filterMap.mp h
    split at hother
    · obtain ⟨rfl, rfl⟩ := Prod.mk.inj (Option.some_inj.mp hother)
      exact ⟨_, hnode, hmem⟩
    · cases hother
  · cases h

theorem Draft.files_toList (d : Draft) : d.build.files.toList
    = d.files.toList.zipIdx.map fun (f, i) => ⟨i, f.path, f.root, f.stdLib⟩ := by
  simp [build, List.mapIdx_eq_zipIdx_map]

namespace Draft.Relocates

open Collecting (Tags Tagged TaggedOnce)

variable {σ : Equiv.Perm NodeId} {τ : Equiv.Perm FileId} {d e : Draft} (h : Relocates σ τ d e)
  (hd : d.TreeShaped)

include h

/-! What variables name. -/

theorem usedName? (id : NodeId) : e.build.usedName? (σ id) = d.build.usedName? id := by
  rw [Program.usedName?, h.node?, ← Program.usedName?]

theorem receiver? (method : NodeId) : e.build.receiver? (σ method) = d.build.receiver? method := by
  simp only [Program.receiver?, h.node?]

theorem isTable_child {id child : NodeId} (hchild : d.build.HasChild id child) :
    e.build.isTable child = d.build.isTable child := by
  rw [Program.isTable, h.node?_child hchild, ← Program.isTable]

include hd

theorem globalName? (id : NodeId) : e.build.globalName? (σ id) = d.build.globalName? id := by
  simp only [Program.globalName?, h.usedName?, h.resolve? _ hd]

theorem selfReceiver? (site : NodeId) :
    e.build.selfReceiver? (σ site) = d.build.selfReceiver? site := by
  simp only [Program.selfReceiver?, h.enclosingMethod? hd]
  cases d.build.enclosingMethod? site with
  | none => rfl
  | some method => exact h.receiver? method

theorem offset_child {id child : NodeId} (hchild : d.build.HasChild id child) :
    e.build.offset child = d.build.offset child := by
  rw [← h.offset hd child, h.child hchild]

theorem localClass (decl : NodeId) : e.build.localClass (σ decl) = d.build.localClass decl := by
  simp only [Program.localClass, h.parent? hd, h.pathOf hd, h.offset hd]
  cases hparent : d.build.parent? decl with
  | none => rfl
  | some stmt =>
    simp only [Option.map_some, h.node?, h.docClass?]
    cases hnode : d.build.node? stmt with
    | none => rfl
    | some node =>
      cases node with
      | localDef names values =>
        -- The declaration is a child of the statement, so it stands where it stood.
        simp only [h.child (hasChild_of_parent? hparent)]
        generalize (List.findIdx? _ names).getD 0 = position
        generalize (if position = 0 then d.build.docClass? stmt else none) = tag?
        cases tag? with
        | some tag => rfl
        | none =>
          cases hvalue : values[position]? with
          | none => rfl
          | some value =>
            have hchild : d.build.HasChild stmt value :=
              ⟨_, hnode, List.mem_append_right _ (List.mem_of_getElem? hvalue)⟩
            simp only [h.isTable_child hchild, h.offset_child hd hchild]
      | _ => rfl

/-! What receivers name, where both programs tag the same globals. -/

variable {tagged tagged' : Std.HashMap String String}
  (htagged : ∀ name : String, tagged'[name]? = tagged[name]?)

include htagged

theorem variableClass? (id : NodeId) :
    e.build.variableClass? tagged' (σ id) = d.build.variableClass? tagged id := by
  simp only [Program.variableClass?, h.usedName?, h.resolve? _ hd, Std.HashMap.getD_eq_getD_getElem?,
    htagged]
  cases d.build.usedName? id with
  | none => rfl
  | some name =>
    cases hdecl : d.build.resolve? name id with
    | none => simp [hdecl]
    | some decl =>
      have hfixed : σ decl = decl := h.fixed (Program.node?_of_resolve? hdecl) (by simp)
      have hclass := h.localClass hd decl
      rw [hfixed] at hclass
      simp [hdecl, hclass]

theorem receiverClass? (id : NodeId) :
    e.build.receiverClass? tagged' (σ id) = d.build.receiverClass? tagged id := by
  have hself : (d.build.selfReceiver? id >>= e.build.variableClass? tagged')
      = d.build.selfReceiver? id >>= d.build.variableClass? tagged := by
    cases hreceiver : d.build.selfReceiver? id with
    | none => rfl
    | some receiver =>
      obtain ⟨method, -, hmethod⟩ := Option.bind_eq_some_iff.mp hreceiver
      have hclass := h.variableClass? hd htagged receiver
      rwa [h.child (Program.hasChild_of_receiver? hmethod)] at hclass
  simp only [Program.receiverClass?, h.variableClass? hd htagged, h.globalName? hd,
    h.selfReceiver? hd, hself]

theorem isTagged (id : NodeId) (cls : String) :
    e.build.isTagged tagged' (σ id) cls = d.build.isTagged tagged id cls := by
  simp only [Program.isTagged, h.usedName?, h.resolve? _ hd, htagged]
  cases d.build.usedName? id with
  | none => rfl
  | some name =>
    cases hdecl : d.build.resolve? name id with
    | none => simp [hdecl]
    | some decl =>
      have hfixed : σ decl = decl := h.fixed (Program.node?_of_resolve? hdecl) (by simp)
      have hparent := h.parent? hd decl
      rw [hfixed] at hparent
      simp only [hdecl, hparent]
      cases d.build.parent? decl <;> simp [h.docClass?]

/-! What nodes declare. -/

omit hd htagged in
theorem namedFields (table : NodeId) :
    e.build.namedFields (σ table) = d.build.namedFields table := by
  simp only [Program.namedFields, h.node?]
  cases hnode : d.build.node? table with
  | none => rfl
  | some node =>
    cases node with
    | table fields =>
      refine List.filterMap_congr fun field hfield => ?_
      rw [h.node?_child ⟨_, hnode, hfield⟩]
    | _ => rfl

omit htagged in
theorem docFields (file : SourceFile) (id : NodeId) :
    Collecting.docFields e.build (file.relocate σ τ) (σ id)
      = (Collecting.docFields d.build file id).map (.refile τ) := by
  simp only [Collecting.docFields, h.doc?, h.offset hd]
  cases d.build.doc? id with
  | none => rfl
  | some doc =>
    cases hclass : doc.class? with
    | none => simp [hclass]
    | some cls =>
      simp only [hclass, List.map_map]
      rfl

theorem targetMember? (file : SourceFile) (target : NodeId) {id : NodeId}
    (hchild : d.build.HasChild id target) :
    Collecting.targetMember? e.build (file.relocate σ τ) tagged' target
      = (Collecting.targetMember? d.build file tagged target).map (.refile τ) := by
  have hname := h.globalName? hd target
  rw [h.child hchild] at hname
  simp only [Collecting.targetMember?, h.node?_child hchild, h.offset_child hd hchild, hname]
  split
  · rename_i object name hnode
    have hclass := h.receiverClass? hd htagged object
    rw [h.child ⟨_, hnode, List.mem_cons_self⟩] at hclass
    simp only [hclass, Option.map_map]
    rfl
  · rw [Option.map_map]
    rfl

omit htagged in
theorem tableMembers (file : SourceFile) (stmt : NodeId) {values : List NodeId}
    (hvalues : ∀ value ∈ values, d.build.HasChild stmt value) :
    Collecting.tableMembers e.build (file.relocate σ τ) (σ stmt) values
      = (Collecting.tableMembers d.build file stmt values).map (.refile τ) := by
  simp only [Collecting.tableMembers, h.docClass?]
  cases d.build.docClass? stmt with
  | none => rfl
  | some cls =>
    cases values with
    | nil => rfl
    | cons value rest =>
      have hfields := h.namedFields value
      rw [h.child (hvalues value List.mem_cons_self)] at hfields
      simp only [hfields, List.map_map]
      refine List.map_congr_left fun (field, name) hfield => ?_
      simp only [h.offset_child hd (Program.hasChild_of_namedFields hfield)]
      rfl

theorem nodeMembers (file : SourceFile) (id : NodeId) :
    Collecting.nodeMembers e.build (file.relocate σ τ) tagged' (σ id)
      = (Collecting.nodeMembers d.build file tagged id).map (.refile τ) := by
  simp only [Collecting.nodeMembers, h.node?, h.offset hd]
  cases hnode : d.build.node? id with
  | none => rfl
  | some node =>
    cases node with
    | methodDef receiver name colon body =>
      have hfixed : σ id = id := h.fixed hnode (by simp)
      have hreceiver : σ receiver = receiver := h.child ⟨_, hnode, List.mem_cons_self⟩
      have hclass := h.receiverClass? hd htagged receiver
      have htags := h.isTagged hd htagged receiver
      rw [hreceiver] at hclass htags
      simp only [hclass, htags, hfixed]
      cases d.build.receiverClass? tagged receiver <;> rfl
    | funcDef name body =>
      have hfixed : σ id = id := h.fixed hnode (by simp)
      simp only [hfixed]
      rfl
    | assign targets values =>
      have hchild {other : NodeId} (hmem : other ∈ targets ++ values) : d.build.HasChild id other :=
        ⟨_, hnode, hmem⟩
      simp only [List.map_append, List.map_filterMap]
      rw [h.tableMembers hd file id fun value hvalue => hchild (List.mem_append_right _ hvalue),
        List.filterMap_congr fun target htarget =>
          h.targetMember? hd htagged file target (hchild (List.mem_append_left _ htarget))]
    | localDef names values =>
      exact h.tableMembers hd file id fun value hvalue =>
        ⟨_, hnode, List.mem_append_right _ hvalue⟩
    | _ => rfl

/-! Tagged globals. -/

omit htagged

omit hd in
theorem files_perm :
    e.build.files.toList.Perm (d.build.files.toList.map (SourceFile.relocate σ τ)) := by
  rw [files_toList, files_toList, List.map_map]
  refine (h.zipIdx_perm.map _).trans (.of_eq ?_)
  rw [List.map_map]
  rfl

theorem tags_iff {id : NodeId} {name cls : String} :
    Tags e.build (σ id) name cls ↔ Tags d.build id name cls := by
  have htarget {target : NodeId} {targets values : List NodeId}
      (hnode : d.build.node? id = some (.assign (target :: targets) values)) :
      e.build.globalName? target = d.build.globalName? target := by
    rw [← h.globalName? hd, h.child ⟨_, hnode, List.mem_cons_self⟩]
  constructor
  · rintro ⟨htag, target, targets, values, hnode, hname⟩
    rw [h.docClass?] at htag
    rw [h.node?] at hnode
    exact ⟨htag, target, targets, values, hnode, htarget hnode ▸ hname⟩
  · rintro ⟨htag, target, targets, values, hnode, hname⟩
    exact ⟨(h.docClass? id).symm ▸ htag, target, targets, values, (h.node? id).trans hnode,
      (htarget hnode).trans hname⟩

theorem tagged_of_tagged {name cls : String} (htagged : Tagged d.build name cls) :
    Tagged e.build name cls := by
  obtain ⟨file, hfile, id, hid, htags⟩ := htagged
  refine ⟨file.relocate σ τ, h.files_perm.mem_iff.mpr (List.mem_map_of_mem hfile), σ id, ?_,
    (h.tags_iff hd).mpr htags⟩
  rw [h.preorder_relocate]
  exact List.mem_map_of_mem hid

theorem tagged_iff {name cls : String} : Tagged e.build name cls ↔ Tagged d.build name cls :=
  ⟨h.symm.tagged_of_tagged (h.treeShaped hd), h.tagged_of_tagged hd⟩

theorem taggedOnce (honce : TaggedOnce d.build) : TaggedOnce e.build := by
  intro name cls cls' htagged htagged'
  exact honce ((h.tagged_iff hd).mp htagged) ((h.tagged_iff hd).mp htagged')

variable (honce : TaggedOnce d.build)

include honce

theorem taggedGlobals (name : String) : (Collecting.ofTags e.build).taggedGlobals[name]?
    = (Collecting.ofTags d.build).taggedGlobals[name]? := by
  refine Option.ext fun cls => ?_
  rw [(h.taggedOnce hd honce).getElem?_eq_some_iff, honce.getElem?_eq_some_iff, h.tagged_iff hd]

end Draft.Relocates

/-! Members by file. -/

namespace Collecting

variable {p : Program}

/-- The members that the nodes of a file declare, in the order of the nodes. -/
def declaredIn (p : Program) (file : SourceFile) : List MemberDecl :=
  (p.preorder file).flatMap fun id =>
    docFields p file id ++ nodeMembers p file (ofTags p).taggedGlobals id

theorem declared_eq (p : Program) : declared p = p.files.toList.flatMap (declaredIn p) := rfl

theorem file_of_mem_docFields {file : SourceFile} {id : NodeId} {m : MemberDecl}
    (h : m ∈ docFields p file id) : m.file = file.id := by
  unfold docFields at h
  split at h
  · cases h
  · split at h
    · cases h
    · obtain ⟨f, -, rfl⟩ := List.mem_map.mp h
      rfl

theorem file_of_mem_tableMembers {file : SourceFile} {stmt : NodeId} {values : List NodeId}
    {m : MemberDecl} (h : m ∈ tableMembers p file stmt values) : m.file = file.id := by
  unfold tableMembers at h
  split at h
  · obtain ⟨field, -, rfl⟩ := List.mem_map.mp h
    rfl
  · cases h

theorem file_of_targetMember? {file : SourceFile} {tagged : Std.HashMap String String}
    {target : NodeId} {m : MemberDecl} (h : targetMember? p file tagged target = some m) :
    m.file = file.id := by
  unfold targetMember? at h
  split at h
  all_goals
    obtain ⟨_, -, rfl⟩ := Option.map_eq_some_iff.mp h
    rfl

theorem file_of_mem_nodeMembers {file : SourceFile} {tagged : Std.HashMap String String}
    {id : NodeId} {m : MemberDecl} (h : m ∈ nodeMembers p file tagged id) : m.file = file.id := by
  unfold nodeMembers at h
  split at h
  · obtain ⟨cls, -, rfl⟩ := Option.map_eq_some_iff.mp (Option.mem_toList.mp h)
    rfl
  · rw [List.mem_singleton.mp h]
    rfl
  · rcases List.mem_append.mp h with h | h
    · obtain ⟨target, -, h⟩ := List.mem_filterMap.mp h
      exact file_of_targetMember? h
    · exact file_of_mem_tableMembers h
  · exact file_of_mem_tableMembers h
  · cases h

theorem file_of_mem_declaredIn {file : SourceFile} {m : MemberDecl} (h : m ∈ declaredIn p file) :
    m.file = file.id := by
  obtain ⟨id, -, h⟩ := List.mem_flatMap.mp h
  rcases List.mem_append.mp h with h | h
  · exact file_of_mem_docFields h
  · exact file_of_mem_nodeMembers h

theorem filter_declaredIn (file : SourceFile) (i : FileId) :
    (declaredIn p file).filter (·.file = i) = if file.id = i then declaredIn p file else [] := by
  split
  · rename_i hid
    exact List.filter_eq_self.mpr fun m hm => by simp [file_of_mem_declaredIn hm, hid]
  · rename_i hid
    exact List.filter_eq_nil_iff.mpr fun m hm => by simp [file_of_mem_declaredIn hm, hid]

/-- What is declared in a file, where no two files of the list have one id. -/
theorem filter_flatMap_declaredIn {files : List SourceFile} (hnodup : (files.map (·.id)).Nodup)
    {file : SourceFile} (hfile : file ∈ files) :
    (files.flatMap (declaredIn p)).filter (·.file = file.id) = declaredIn p file := by
  induction files with
  | nil => cases hfile
  | cons first rest ih =>
    obtain ⟨hfresh, hnodup⟩ := List.nodup_cons.mp hnodup
    rw [List.flatMap_cons, List.filter_append, filter_declaredIn]
    rcases List.mem_cons.mp hfile with rfl | hfile
    · have hrest : (rest.flatMap (declaredIn p)).filter (·.file = file.id) = [] := by
        refine List.filter_eq_nil_iff.mpr fun m hm => ?_
        obtain ⟨other, hother, hm⟩ := List.mem_flatMap.mp hm
        have hne : other.id ≠ file.id := fun heq => hfresh (List.mem_map.mpr ⟨other, hother, heq⟩)
        simp [file_of_mem_declaredIn hm, hne]
      rw [if_pos rfl, hrest, List.append_nil]
    · have hne : first.id ≠ file.id := fun heq =>
        hfresh (List.mem_map.mpr ⟨file, hfile, heq.symm⟩)
      rw [if_neg hne, List.nil_append, ih hnodup hfile]

end Collecting

namespace Draft

variable {d : Draft}

theorem nodup_files (d : Draft) : (d.build.files.toList.map (·.id)).Nodup := by
  have hids : d.build.files.toList.map (·.id) = d.files.toList.zipIdx.map Prod.snd := by
    rw [files_toList, List.map_map]
    rfl
  rw [hids, List.zipIdx_map_snd]
  exact List.nodup_range'

theorem id_of_file? {i : FileId} {file : SourceFile} (h : d.build.file? i = some file) :
    file.id = i := by
  simp only [Program.file?, build, Array.getElem?_mapIdx, Option.map_eq_some_iff] at h
  obtain ⟨f, -, rfl⟩ := h
  rfl

theorem mem_files_iff {file : SourceFile} :
    file ∈ d.build.files.toList ↔ d.build.file? file.id = some file := by
  simp only [List.mem_iff_getElem?, Array.getElem?_toList]
  constructor
  · rintro ⟨i, hfile⟩
    rwa [id_of_file? hfile]
  · exact fun hfile => ⟨file.id, hfile⟩

theorem filter_declared (d : Draft) (i : FileId) :
    (Collecting.declared d.build).filter (·.file = i)
      = (d.build.file? i).elim [] (Collecting.declaredIn d.build) := by
  rw [Collecting.declared_eq]
  cases hfile : d.build.file? i with
  | some file =>
    obtain rfl := id_of_file? hfile
    exact Collecting.filter_flatMap_declaredIn d.nodup_files (mem_files_iff.mpr hfile)
  | none =>
    refine List.filter_eq_nil_iff.mpr fun m hm => ?_
    obtain ⟨file, hmem, hm⟩ := List.mem_flatMap.mp hm
    have hne : file.id ≠ i := by
      rintro rfl
      simp [mem_files_iff.mp hmem] at hfile
    simp [Collecting.file_of_mem_declaredIn hm, hne]

namespace Relocates

variable {σ : Equiv.Perm NodeId} {τ : Equiv.Perm FileId} {e : Draft} (h : Relocates σ τ d e)
  (hd : d.TreeShaped) (honce : Collecting.TaggedOnce d.build)

include h hd honce

theorem declaredIn_relocate (file : SourceFile) :
    Collecting.declaredIn e.build (file.relocate σ τ)
      = (Collecting.declaredIn d.build file).map (.refile τ) := by
  simp only [Collecting.declaredIn, h.preorder_relocate, List.flatMap_map, List.map_flatMap,
    List.map_append, h.docFields hd, h.nodeMembers hd (h.taggedGlobals hd honce)]

theorem declared_perm :
    (Collecting.declared e.build).Perm ((Collecting.declared d.build).map (.refile τ)) := by
  rw [Collecting.declared_eq, Collecting.declared_eq]
  refine (h.files_perm.flatMap_right _).trans (.of_eq ?_)
  simp only [List.flatMap_map, List.map_flatMap, h.declaredIn_relocate hd honce]

/-- A class has the same members in both programs. -/
theorem membersOf_perm (cls : String) : ((Index.ofProgram e.build).membersOf cls).Perm
    (((Index.ofProgram d.build).membersOf cls).map (.refile τ)) := by
  rw [Index.membersOf_ofProgram, Index.membersOf_ofProgram]
  refine ((h.declared_perm hd honce).filter _).trans (.of_eq ?_)
  rw [List.filter_map]
  rfl

/-- The members of a class in one file come in the same order in both programs. -/
theorem membersOf_filter (cls : String) (i : FileId) :
    ((Index.ofProgram e.build).membersOf cls).filter (·.file = τ i)
      = (((Index.ofProgram d.build).membersOf cls).filter (·.file = i)).map (.refile τ) := by
  have hfile : (Collecting.declared e.build).filter (·.file = τ i)
      = ((Collecting.declared d.build).filter (·.file = i)).map (.refile τ) := by
    rw [filter_declared, filter_declared, h.file?]
    cases d.build.file? i with
    | none => rfl
    | some file => exact h.declaredIn_relocate hd honce file
  rw [Index.membersOf_ofProgram, Index.membersOf_ofProgram, List.filter_comm, hfile,
    List.filter_map, List.filter_comm]
  rfl

end Relocates

end Draft

end LuaTypes
