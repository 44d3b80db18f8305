import LuaTypes.Proofs.Scopes
import LuaTypes.Index.Collect

/-!
What an index holds of a program. The members of a class are what the nodes of the files declare on
it, in the order of the files and of their nodes.
-/

namespace LuaTypes

variable {p : Program} {cls : String}

namespace Index

theorem membersOf_addMember (ix : Index) (d : MemberDecl) (cls : String) :
    (ix.addMember d).membersOf cls
      = ix.membersOf cls ++ if d.className = cls then [d] else [] := by
  simp only [membersOf, addMember, Std.HashMap.getD_insert, beq_iff_eq]
  split
  · rename_i h
    rw [h, Array.toList_push]
  · rw [List.append_nil]

theorem membersOf_foldl_addMember (decls : List MemberDecl) (ix : Index) (cls : String) :
    (decls.foldl addMember ix).membersOf cls
      = ix.membersOf cls ++ decls.filter (·.className = cls) := by
  induction decls generalizing ix with
  | nil => exact (List.append_nil _).symm
  | cons d decls ih =>
    rw [List.foldl_cons, ih, membersOf_addMember, List.append_assoc, List.filter_cons]
    congr 1
    by_cases h : d.className = cls <;> simp [h]

/-- Adding members changes nothing but the members. -/
theorem foldl_addMember_eq (decls : List MemberDecl) (ix : Index) :
    decls.foldl addMember ix = { ix with members := (decls.foldl addMember ix).members } := by
  induction decls generalizing ix with
  | nil => rfl
  | cons d decls ih =>
    rw [List.foldl_cons, ih]
    rfl

end Index

namespace Collecting

/-- The comment of the statement tags the global with the class. -/
structure Tags (p : Program) (stmt : NodeId) (name cls : String) : Prop where
  tag : (p.docClass? stmt).map (·.name) = some cls
  target : ∃ target targets values,
    p.node? stmt = some (.assign (target :: targets) values) ∧ p.globalName? target = some name

/-- What holds of an index in the making: it has no members yet, every alias is declared by a
comment, and every tagged global is tagged by a comment in a file. -/
structure Sound (p : Program) (c : Collecting) : Prop where
  members (cls : String) : c.index.membersOf cls = []
  ready : c.index.ready = true
  aliased {name : String} {a : AliasDecl} : c.index.aliases[name]? = some a →
    ∃ id doc, p.doc? id = some doc ∧ a.target ∈ doc.aliases.map (·.ty)
  tagged {name cls : String} : c.taggedGlobals[name]? = some cls →
    ∃ file ∈ p.files.toList, ∃ id ∈ p.preorder file, Tags p id name cls

theorem Sound.tagClass {c : Collecting} (h : c.Sound p) {file : SourceFile}
    (hfile : file ∈ p.files.toList) {id : NodeId} (hid : id ∈ p.preorder file) {tag : DocClass}
    (htag : p.docClass? id = some tag) : (c.tagClass p file id tag).Sound p := by
  simp only [Collecting.tagClass]
  split
  · rename_i target targets values hnode
    split
    · rename_i name hname
      refine ⟨h.members, h.ready, h.aliased, fun {other cls} htagged => ?_⟩
      rw [Std.HashMap.getElem?_insert] at htagged
      split at htagged
      · rename_i heq
        obtain rfl := beq_iff_eq.mp heq
        obtain rfl := Option.some_inj.mp htagged
        exact ⟨file, hfile, id, hid, by rw [htag, Option.map_some], target, targets, values, hnode, hname⟩
      · exact h.tagged htagged
    · exact ⟨h.members, h.ready, h.aliased, h.tagged⟩
  · exact ⟨h.members, h.ready, h.aliased, h.tagged⟩

theorem Sound.addAlias {c : Collecting} (h : c.Sound p) {id : NodeId} {doc : Doc}
    (hdoc : p.doc? id = some doc) (file : FileId) {f : Field} (hf : f ∈ doc.aliases) :
    Sound p { c with index := c.index.addAlias ⟨f.name, file, f.ty⟩ } := by
  rw [Index.addAlias]
  split
  · exact h
  · refine ⟨h.members, h.ready, fun {name a} ha => ?_, h.tagged⟩
    rw [Std.HashMap.getElem?_insert] at ha
    split at ha
    · obtain rfl := Option.some_inj.mp ha
      exact ⟨id, doc, hdoc, List.mem_map_of_mem hf⟩
    · exact h.aliased ha

theorem Sound.addAliases {c : Collecting} (h : c.Sound p) {id : NodeId} {doc : Doc}
    (hdoc : p.doc? id = some doc) (file : FileId) :
    Sound p ⟨doc.aliases.foldl (fun ix a => ix.addAlias ⟨a.name, file, a.ty⟩) c.index,
      c.taggedGlobals⟩ :=
  List.foldlRecOn (motive := fun ix : Index => Sound p ⟨ix, c.taggedGlobals⟩) doc.aliases
    (fun ix a => ix.addAlias ⟨a.name, file, a.ty⟩) h fun _ hix _ hf => hix.addAlias hdoc file hf

theorem Sound.tags {c : Collecting} (h : c.Sound p) {file : SourceFile}
    (hfile : file ∈ p.files.toList) {id : NodeId} (hid : id ∈ p.preorder file) :
    (c.tags p file id).Sound p := by
  unfold Collecting.tags
  cases hdoc : p.doc? id with
  | none => exact h
  | some doc =>
    refine Sound.addAliases ?_ hdoc file.id
    cases hclass : doc.class? with
    | none => exact h
    | some tag => exact h.tagClass hfile hid (by simp [Program.docClass?, hdoc, hclass])

theorem sound_ofTags (p : Program) : (ofTags p).Sound p := by
  have hempty : Sound p {} := ⟨fun cls => by simp [Index.membersOf], rfl, fun h => by simp at h, fun h => by simp at h⟩
  refine List.foldlRecOn (motive := Sound p) _ _ hempty fun c hc file hfile => ?_
  exact List.foldlRecOn (motive := Sound p) _ _ hc fun c hc id hid => hc.tags hfile hid

/-- The members that the nodes of a program declare, in the order of indexing. -/
def declared (p : Program) : List MemberDecl :=
  p.files.toList.flatMap fun file => (p.preorder file).flatMap fun id =>
    docFields p file id ++ nodeMembers p file (ofTags p).taggedGlobals id

end Collecting

namespace Index

theorem ofProgram_eq (p : Program) :
    ofProgram p = (Collecting.declared p).foldl addMember (Collecting.ofTags p).index := by
  simp only [Collecting.declared, List.foldl_flatMap]
  rfl

theorem membersOf_ofProgram (p : Program) (cls : String) :
    (ofProgram p).membersOf cls = (Collecting.declared p).filter (·.className = cls) := by
  rw [ofProgram_eq, membersOf_foldl_addMember, (Collecting.sound_ofTags p).members, List.nil_append]

@[simp] theorem ready_ofProgram (p : Program) : (ofProgram p).ready = true := by
  rw [ofProgram_eq, foldl_addMember_eq]
  exact (Collecting.sound_ofTags p).ready

/-- Every alias is declared by a comment. -/
theorem exists_alias {name : String} {a : AliasDecl} (h : (ofProgram p).findAlias? name = some a) :
    ∃ id doc, p.doc? id = some doc ∧ a.target ∈ doc.aliases.map (·.ty) := by
  rw [findAlias?, ready_ofProgram, if_pos rfl, ofProgram_eq, foldl_addMember_eq] at h
  exact (Collecting.sound_ofTags p).aliased h

theorem mem_membersOf_ofProgram {d : MemberDecl} : d ∈ (ofProgram p).membersOf cls ↔
    d.className = cls ∧ ∃ file ∈ p.files.toList, ∃ id ∈ p.preorder file,
      d ∈ Collecting.docFields p file id
        ++ Collecting.nodeMembers p file (Collecting.ofTags p).taggedGlobals id := by
  simp only [membersOf_ofProgram, Collecting.declared, List.mem_filter, List.mem_flatMap,
    decide_eq_true_eq, and_comm]

/-- A look-up that is not deep finds the members of the name. -/
theorem mem_exact_ofProgram {d : MemberDecl} {name : String} :
    d ∈ (ofProgram p).exact cls name false ↔
      d ∈ (ofProgram p).membersOf cls ∧ d.name = name := by
  simp [exact, ownDecls]

theorem docFields_of_untagged {id : NodeId} (h : p.docClass? id = none) (file : SourceFile) :
    Collecting.docFields p file id = [] := by
  unfold Collecting.docFields
  cases hdoc : p.doc? id with
  | none => rfl
  | some doc =>
    have hclass : doc.class? = none := by simpa [Program.docClass?, hdoc] using h
    simp only [hclass]

theorem tableMembers_of_untagged {stmt : NodeId} (h : p.docClass? stmt = none) (file : SourceFile)
    (values : List NodeId) : Collecting.tableMembers p file stmt values = [] := by
  unfold Collecting.tableMembers
  simp only [h]

/-- A program whose comments declare no class and whose nodes declare no member has no members. -/
theorem hasMembers_eq_false (htags : ∀ id, p.docClass? id = none)
    (hnodes : ∀ file ∈ p.files.toList, ∀ tagged, ∀ id ∈ p.preorder file,
      Collecting.nodeMembers p file tagged id = []) (cls : String) :
    (ofProgram p).hasMembers cls = false := by
  have hnone : (ofProgram p).membersOf cls = [] := by
    refine List.eq_nil_iff_forall_not_mem.mpr fun d hd => ?_
    obtain ⟨-, file, hfile, id, hid, hmem⟩ := mem_membersOf_ofProgram.mp hd
    rw [docFields_of_untagged (htags id), hnodes file hfile _ id hid] at hmem
    cases hmem
  rw [hasMembers, hnone, List.isEmpty_nil, Bool.not_true, Bool.and_false]

/-- The class of a member that is there has members. -/
theorem hasMembers_ofProgram {d : MemberDecl} (h : d ∈ (ofProgram p).membersOf cls) :
    (ofProgram p).hasMembers cls = true := by
  have hne : (ofProgram p).membersOf cls ≠ [] := List.ne_nil_of_mem h
  simp [hasMembers, hne]

end Index

/-- The variable that a member is declared through: the object of an assigned field, or the receiver
of a method. -/
def MemberDecl.through? (p : Program) (d : MemberDecl) : Option NodeId :=
  match d.origin with
  | .assign target =>
    match p.node? target with
    | some (.index object _) => some object
    | _ => none
  | .method node =>
    match p.node? node with
    | some (.methodDef receiver _ _ _) => some receiver
    | _ => none
  | _ => none

namespace Collecting

variable {file : SourceFile} {d : MemberDecl} {x : NodeId}

theorem receiverClass?_of_targetMember? {tagged : Std.HashMap String String} {target : NodeId}
    (hd : targetMember? p file tagged target = some d) (hx : d.through? p = some x) :
    p.receiverClass? tagged x = some d.className := by
  have hglobal (hd : (p.globalName? target).map (fun name =>
      declare file envWord name (.globalAssign target) (p.offset target) false) = some d) : False := by
    obtain ⟨name, -, rfl⟩ := Option.map_eq_some_iff.mp hd
    cases hx
  unfold targetMember? at hd
  cases hnode : p.node? target with
  | none => exact absurd (by simpa [hnode] using hd) hglobal
  | some node =>
    simp only [hnode] at hd
    cases node with
    | index object key =>
      cases key with
      | dot name =>
        obtain ⟨cls, hcls, rfl⟩ := Option.map_eq_some_iff.mp hd
        simp only [MemberDecl.through?, declare, hnode] at hx
        obtain rfl : object = x := Option.some_inj.mp hx
        exact hcls
      | _ => exact absurd hd hglobal
    | _ => exact absurd hd hglobal

theorem receiverClass?_of_nodeMembers {tagged : Std.HashMap String String} {id : NodeId}
    (hd : d ∈ nodeMembers p file tagged id) (hx : d.through? p = some x) :
    p.receiverClass? tagged x = some d.className := by
  have htable {values : List NodeId} (hd : d ∈ tableMembers p file id values) : False := by
    unfold tableMembers at hd
    split at hd
    · obtain ⟨_, -, rfl⟩ := List.mem_map.mp hd
      cases hx
    · cases hd
  unfold nodeMembers at hd
  cases hnode : p.node? id with
  | none => simp [hnode] at hd
  | some node =>
    simp only [hnode] at hd
    cases node with
    | methodDef receiver name colon body =>
      obtain ⟨cls, hcls, rfl⟩ := Option.map_eq_some_iff.mp (Option.mem_toList.mp hd)
      simp only [MemberDecl.through?, declare, hnode] at hx
      obtain rfl : receiver = x := Option.some_inj.mp hx
      exact hcls
    | funcDef name body =>
      obtain rfl := List.mem_singleton.mp hd
      simp [MemberDecl.through?, declare] at hx
    | assign targets values =>
      rcases List.mem_append.mp hd with hd | hd
      · obtain ⟨target, -, hd⟩ := List.mem_filterMap.mp hd
        exact receiverClass?_of_targetMember? hd hx
      · exact absurd hd htable
    | localDef names values => exact absurd hd htable
    | _ => cases hd

end Collecting

/-- A member that is declared through a variable is filed under the class that the variable
names. -/
theorem Index.receiverClass?_of_through? {d : MemberDecl} {x : NodeId}
    (hd : d ∈ (ofProgram p).membersOf cls) (hx : d.through? p = some x) :
    p.receiverClass? (Collecting.ofTags p).taggedGlobals x = some cls := by
  obtain ⟨rfl, file, -, id, -, hd⟩ := mem_membersOf_ofProgram.mp hd
  rcases List.mem_append.mp hd with hd | hd
  · unfold Collecting.docFields at hd
    split at hd
    · cases hd
    · split at hd
      · cases hd
      · obtain ⟨f, -, rfl⟩ := List.mem_map.mp hd
        cases hx
  · exact Collecting.receiverClass?_of_nodeMembers hd hx

/-- A tagged global is declared by an assignment that the comment tags. -/
theorem Index.exists_tagged {name : String}
    (h : (Collecting.ofTags p).taggedGlobals[name]? = some cls) :
    ∃ d ∈ (ofProgram p).exact envWord name false, ∃ target, d.origin = .globalAssign target ∧
      ∃ file ∈ p.files.toList, ∃ stmt ∈ p.preorder file,
        (p.docClass? stmt).map (·.name) = some cls ∧ p.globalName? target = some name ∧
        ∃ targets values, p.node? stmt = some (.assign (target :: targets) values) := by
  obtain ⟨file, hfile, stmt, hstmt, htag, target, targets, values, hnode, hname⟩ :=
    (Collecting.sound_ofTags p).tagged h
  refine ⟨Collecting.declare file envWord name (.globalAssign target) (p.offset target) false,
    ?_, target, rfl, file, hfile, stmt, hstmt, htag, hname, targets, values, hnode⟩
  refine mem_exact_ofProgram.mpr ⟨mem_membersOf_ofProgram.mpr ⟨rfl, file, hfile, stmt, hstmt, ?_⟩, rfl⟩
  have htarget : Collecting.targetMember? p file (Collecting.ofTags p).taggedGlobals target
      = some (Collecting.declare file envWord name (.globalAssign target) (p.offset target) false) := by
    unfold Collecting.targetMember?
    cases hused : p.node? target with
    | none => simp [Program.globalName?, Program.usedName?, hused] at hname
    | some node =>
      cases node with
      | nameRef own => simp only [hname, Option.map_some]
      | _ => simp [Program.globalName?, Program.usedName?, hused, Node.usedName?] at hname
  simp [Collecting.nodeMembers, hnode, htarget]

end LuaTypes
