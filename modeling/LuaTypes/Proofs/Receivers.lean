import LuaTypes.Proofs.Agreement
import LuaTypes.Proofs.WellFormedPrograms

/-!
Receivers. A member is found on the variable that it was declared through if that is a global: the
type of a global has the class that its members are filed under, also where a comment on one of its
assignments names the class. With what holds of locals this settles for every variable whether a
member that is filed under its class is found on it.
-/

namespace LuaTypes

/-- A fold ensures what one of its steps brings about and no later one undoes. -/
theorem Keeping.foldlM_of_mem {m : Type → Type} [Monad m] [LawfulMonad m] (K : Keeping m)
    {α β : Type} {Q R : β → Prop} {f : β → α → m β} {as : List α} {a : α} (ha : a ∈ as)
    (hkeep : ∀ b, Q b → ∀ a ∈ as, K.Ensures Q (f b a)) (hstep : ∀ b, Q b → K.Ensures R (f b a))
    (hkeep' : ∀ b, R b → ∀ a ∈ as, K.Ensures R (f b a)) {b : β} (hb : Q b) :
    K.Ensures R (as.foldlM f b) := by
  obtain ⟨before, after, rfl⟩ := List.append_of_mem ha
  rw [List.foldlM_append]
  apply K.bind (K.foldlM before (fun b hb a ha => hkeep b hb a (List.mem_append_left _ ha)) hb)
  intro b hb
  rw [List.foldlM_cons]
  apply K.bind (hstep b hb)
  intro b hb
  exact K.foldlM after
    (fun b hb a ha => hkeep' b hb a (List.mem_append_right _ (List.mem_cons_of_mem _ ha))) hb

/-! Globals. -/

section

variable {env : Env} {memo : ClassMemo} {keys : List Key} {name cls : String}

/-- A target has the class that the comment of its assignment names. -/
theorem assignedTy_tagged {target stmt : NodeId} {i : Nat}
    {targets values : List NodeId} {c : DocClass}
    (htarget : env.program.assignTarget? target = some (stmt, i))
    (hnode : env.program.node? stmt = some (.assign targets values))
    (htag : env.program.docClass? stmt = some c) :
    wellFormed.asking.Ensures (fun ty => ty.WellFormed ∧ ty.HasTop c.name)
      (assignedTy env target) := by
  have htop : c.ty.HasTop c.name := Ty.hasTop_cls (.declared c.name c.details)
  have hty : c.ty.WellFormed := .cls_of_docFields rfl
  unfold assignedTy
  simp only [htarget, hnode, declaredTy?_tagged htag]
  apply wellFormed.asking.bind (P := fun declared? => declared? = some c.ty)
  · exact fun _ hs => .done rfl hs
  · rintro _ rfl
    dsimp only [Option.getD_some]
    split
    · exact wellFormed.asking.pure ⟨hty, htop⟩
    · split
      · exact wellFormed.asking.pure ⟨hty, htop⟩
      · apply wellFormed.asking.bind (wellFormed.discipline.ask (q := .listed _ values i) trivial)
        intro ty hvalue
        exact wellFormed.asking.pure ⟨hty.join hvalue, htop.join_left ty⟩

/-- One declaration of a global gives its type a class. -/
theorem globalDeclsTy_hasTop (h : env.WellFormed) (hcancelled : env.cancelled = false)
    {d : MemberDecl} (hd : d ∈ env.index.exact envWord name false)
    (htop : wellFormed.asking.Ensures (fun ty => ty.WellFormed ∧ ty.HasTop cls) (memberTy env d)) :
    wellFormed.asking.Ensures (·.HasTop cls) (globalDeclsTy env name) := by
  have hjoin {P : Ty → Prop} {found : Asking Ty} {ty : Ty}
      (hfound : wellFormed.asking.Ensures P found) (hP : ∀ other, P other →
        (ty.join other).WellFormed ∧ (ty.join other).HasTop cls) :
      wellFormed.asking.Ensures (fun ty => ty.WellFormed ∧ ty.HasTop cls)
        (do return ty.join (← found)) :=
    wellFormed.asking.bind hfound fun other hother => wellFormed.asking.pure (hP other hother)
  rw [globalDeclsTy, Asking.unionOf, hcancelled, if_neg Bool.false_ne_true]
  have hall := wellFormed.asking.foldlM_of_mem (Q := Ty.WellFormed)
    (R := fun ty => ty.WellFormed ∧ ty.HasTop cls) hd
    (f := fun ty d => do return ty.join (← memberTy env d))
    (fun ty hty d hd => wellFormed.asking.bind (h.memberTy (h.exact d hd)) fun other hother =>
      wellFormed.asking.pure (hty.join hother))
    (fun ty hty => hjoin htop fun other hother =>
      ⟨hty.join hother.1, hty.hasTop_join hother.1 hother.2⟩)
    (fun ty hty d hd => hjoin (h.memberTy (h.exact d hd)) fun other hother =>
      ⟨hty.1.join hother, hty.2.join_left other⟩)
    .unknown
  exact wellFormed.asking.imp hall fun _ hty => hty.2

/-- The type of a global has the class that its members are filed under, if its declarations give it
the class that it is tagged with. -/
theorem globalTy_offers (h : env.WellFormed) (hcancelled : env.cancelled = false)
    (hkeys : env.program.AreNames keys) {tagged : Std.HashMap String String}
    (htagged : ∀ cls, tagged[name]? = some cls →
      wellFormed.asking.Ensures (·.HasTop cls) (globalDeclsTy env name)) :
    ((globalTy env name).during env memo keys).Offers (tagged.getD name (globalClassName name)) := by
  let HasTag (ty : Ty) : Prop := ∀ cls, tagged[name]? = some cls → ty.HasTop cls
  have hdeclared : HasTag ((ask (.globalDecls name)).during env memo keys) := by
    intro cls hcls
    -- Only names are in progress, so the question for the declarations is let in.
    have hfresh : ((Query.globalDecls name).key :: keys).Nodup := by
      refine List.nodup_cons.mpr ⟨fun hmem => ?_, hkeys.nodup⟩
      obtain ⟨id, hid⟩ := hkeys.nodes _ hmem
      cases hid
    have hroom : keys.length < maxInferDepth := Nat.lt_of_le_of_lt hkeys.length (by decide)
    rw [Asking.ask_during hcancelled hfresh hroom]
    exact Asking.during_keeps h (htagged cls hcls)
  refine Asking.during_bind hdeclared fun declared s htag => ?_
  have hglobal : (declared.join (.cls (.global name))).HasTop
      (tagged.getD name (globalClassName name)) := by
    rw [Std.HashMap.getD_eq_getD_getElem?]
    cases hcls : tagged[name]? with
    | some cls => exact (htag cls hcls).join_left _
    | none => exact Ty.hasTop_join_cls declared (.global name)
  split
  · rename_i hprimitive
    exact .inl hprimitive
  · split
    · exact .inr (hglobal.join_left _)
    · exact .inr hglobal

end

/-! Places. -/

namespace Draft

variable {d : Draft} (h : d.TreeShaped)

include h

/-- A node that a file lists has a place. -/
theorem TreeShaped.exists_place? {file : SourceFile} (hfile : file ∈ d.build.files.toList)
    {id : NodeId} (hid : id ∈ d.build.preorder file) (hnode : d.build.node? id ≠ none) :
    ∃ place, d.build.place? id = some place := by
  obtain ⟨i, hi, rfl⟩ := List.mem_iff_getElem.mp hfile
  obtain ⟨link, hlink, rfl⟩ := List.mem_map.mp hid
  have hsize : i < d.files.size := by simpa [build] using hi
  have hget : d.files[i]? = some d.files[i] := Array.getElem?_eq_getElem hsize
  have hroot : (link.1, link.2) ∈ linksFrom d.nodes d.files[i].root := by simpa [build] using hlink
  obtain ⟨offset, hplace⟩ := h.place?_of_link hget hroot hnode
  exact ⟨_, hplace⟩

/-- The first target of an assignment. -/
theorem TreeShaped.assignTarget?_first {stmt target : NodeId} {targets values : List NodeId}
    {place : Place} (hplace : d.build.place? stmt = some place)
    (hstmt : d.build.node? stmt = some (.assign (target :: targets) values))
    (htarget : d.build.node? target ≠ none) : d.build.assignTarget? target = some (stmt, 0) := by
  have hbelow : d.build.HasChild stmt target := ⟨_, hstmt, List.mem_cons_self⟩
  obtain ⟨offset, htarget⟩ := h.place?_child hplace hbelow htarget
  simp [Program.assignTarget?, Program.parent?, htarget, hstmt, List.findIdx?_cons]

/-- What stands below the parent of a node is in the file of the node. -/
theorem TreeShaped.fileOf?_below_parent {id parent other : NodeId}
    (hparent : d.build.parent? id = some parent) (hbelow : d.build.HasChild parent other)
    (hother : d.build.node? other ≠ none) :
    ∃ file, d.build.fileOf? other = some file ∧ file.path = d.build.pathOf id := by
  obtain ⟨place, above, hplace, habove, hfile⟩ := h.place?_parent hparent
  obtain ⟨offset, hother⟩ := h.place?_child habove hbelow hother
  obtain ⟨f, hget, -⟩ := link_of_place? hplace
  let file : SourceFile := ⟨place.file, f.path, f.root, f.stdLib⟩
  have hbuilt : d.build.files[place.file]? = some file := by simp [build, hget, file]
  refine ⟨file, ?_, ?_⟩
  · simp [Program.fileOf?, Program.file?, hother, hfile, hbuilt]
  · simp [Program.pathOf, Program.fileOf?, Program.file?, hplace, hbuilt]

end Draft

/-! Variables. -/

section

variable {d : Draft} (h : d.TreeShaped) {memo : ClassMemo} {cls : String} {x : NodeId}

include h

/-- The declarations of a global give it the class that it is tagged with. -/
theorem Draft.TreeShaped.globalDeclsTy_tagged {env : Env} (henv : env.WellFormed)
    (hprogram : env.program = d.build) (hindex : env.index = .ofProgram d.build)
    (hcancelled : env.cancelled = false) {name : String}
    (htag : (Collecting.ofTags d.build).taggedGlobals[name]? = some cls) :
    wellFormed.asking.Ensures (·.HasTop cls) (globalDeclsTy env name) := by
  obtain ⟨decl, hdecl, target, horigin, file, hfile, stmt, hstmt, hclass, hname, targets, values,
    hnode⟩ := Index.exists_tagged htag
  obtain ⟨c, hdoc, rfl⟩ := Option.map_eq_some_iff.mp hclass
  have htarget : d.build.node? target ≠ none := by
    rw [Program.node?_of_usedName? (Program.globalName?_spec hname).1]
    nofun
  obtain ⟨place, hplace⟩ := h.exists_place? hfile hstmt (by simp [hnode])
  rw [← hindex] at hdecl
  refine globalDeclsTy_hasTop henv hcancelled hdecl ?_
  rw [memberTy, horigin]
  have hfirst := h.assignTarget?_first hplace hnode htarget
  rw [← hprogram] at hdoc hnode hfirst
  exact assignedTy_tagged hfirst hnode hdoc

/-- A member that is filed under the class of a local is found on the local exactly if the type of the
local is one that offers it. -/
theorem Draft.TreeShaped.local_offers_iff {m : MemberDecl}
    (hm : m ∈ (Index.ofProgram d.build).membersOf cls) (hx : m.through? d.build = some x)
    {name : String} (hname : d.build.usedName? (d.build.meant x) = some name) {decl : NodeId}
    (hresolve : d.build.resolve? name (d.build.meant x) = some decl)
    (settings : Settings) (resolveModule? : String → Option FileId) (memo : ClassMemo) :
    let env : Env := ⟨d.build, .ofProgram d.build, settings, resolveModule?, false⟩
    (infer env x { memo }).1.Offers cls ↔
      env.DeclarationOffers memo (.node decl :: env.program.namesRead x) cls decl name := by
  intro env
  have hreceiver := Index.receiverClass?_of_through? hm hx
  have hclass := Program.variableClass?_meant hreceiver
  simp only [Program.variableClass?, hname, hresolve, Option.bind_eq_bind, Option.bind_some,
    Option.pure_def, Option.some_inj] at hclass
  subst hclass
  have hkeys : env.program.AreNames (env.program.namesRead x) :=
    Program.areNames_namesRead hreceiver
  have hdecl : env.program.node? decl = some (.nameDef name) := Program.node?_of_resolve? hresolve
  have hmeant : nameTy env (env.program.meant x) name = valueTy decl := by
    unfold nameTy
    simp only [env, hresolve]
  have hvalue : (valueTy decl).during env memo (env.program.namesRead x)
      = (declarationTy env decl name).during env memo
          (.node decl :: env.program.namesRead x) := by
    have hnodeTy : nodeTy env decl (.nth 0) = declarationTy env decl name := by
      unfold nodeTy
      rw [hdecl]
    rw [← hnodeTy]
    exact Asking.ask_during (q := .value decl (.nth 0)) rfl (hkeys.declared hdecl)
      (Nat.lt_of_le_of_lt hkeys.length (by decide))
  have hinfer : (infer env x { memo }).1 = (nameTy env (env.program.meant x) name).during env memo
      (env.program.namesRead x) := infer_meant rfl hname
  rw [hinfer, hmeant, hvalue]
  refine declarationTy_offers_iff rfl hkeys hdecl (Index.hasMembers_ofProgram hm) ?_
  intro stmt hparent table hbelow htable
  obtain ⟨fields, hfields⟩ := Program.exists_fields htable
  exact h.fileOf?_below_parent hparent hbelow (hfields ▸ Option.some_ne_none _)

/-- A member that is filed under the class of a global is found on the global. -/
theorem Draft.TreeShaped.global_offers (hdocs : d.build.WellFormed) {m : MemberDecl}
    (hm : m ∈ (Index.ofProgram d.build).membersOf cls) (hx : m.through? d.build = some x)
    {name : String} (hname : d.build.usedName? (d.build.meant x) = some name)
    (hresolve : d.build.resolve? name (d.build.meant x) = none)
    (settings : Settings) (resolveModule? : String → Option FileId) (memo : ClassMemo) :
    let env : Env := ⟨d.build, .ofProgram d.build, settings, resolveModule?, false⟩
    (infer env x { memo }).1.Offers cls := by
  intro env
  have hreceiver := Index.receiverClass?_of_through? hm hx
  have hclass := Program.variableClass?_meant hreceiver
  simp only [Program.variableClass?, hname, hresolve, Option.bind_eq_bind, Option.bind_some,
    Option.pure_def] at hclass
  split at hclass
  · cases hclass
  · rename_i hself
    obtain rfl := Option.some_inj.mp hclass
    have henv : env.WellFormed := .intro hdocs (.ofProgram hdocs) settings resolveModule? false
    have hmeant : nameTy env (env.program.meant x) name = globalTy env name := by
      unfold nameTy
      simp only [env, hresolve, if_neg hself]
    have hinfer : (infer env x { memo }).1 = (nameTy env (env.program.meant x) name).during env memo
        (env.program.namesRead x) := infer_meant rfl hname
    rw [hinfer, hmeant]
    exact globalTy_offers henv rfl (Program.areNames_namesRead hreceiver) fun cls htag =>
      h.globalDeclsTy_tagged henv rfl rfl rfl htag

/-- A member that is filed under a class through a variable is found on the variable exactly if the
type of the variable is one that offers it. -/
theorem Draft.TreeShaped.offers_iff (hdocs : d.build.WellFormed) {m : MemberDecl}
    (hm : m ∈ (Index.ofProgram d.build).membersOf cls) (hx : m.through? d.build = some x)
    (settings : Settings) (resolveModule? : String → Option FileId) (memo : ClassMemo) :
    let env : Env := ⟨d.build, .ofProgram d.build, settings, resolveModule?, false⟩
    (infer env x { memo }).1.Offers cls ↔ env.VariableOffers memo cls x := by
  intro env
  obtain ⟨name, hname⟩ := Program.exists_usedName?_meant (Index.receiverClass?_of_through? hm hx)
  unfold Env.VariableOffers
  cases hresolve : d.build.resolve? name (d.build.meant x) with
  | some decl =>
    refine (h.local_offers_iff hm hx hname hresolve settings resolveModule? memo).trans ?_
    constructor
    · rintro hoffers name' decl' hname' hresolve'
      obtain rfl := Option.some_inj.mp (hname.symm.trans hname')
      obtain rfl := Option.some_inj.mp (hresolve.symm.trans hresolve')
      exact hoffers
    · exact fun hoffers => hoffers name decl hname hresolve
  | none =>
    refine iff_of_true (h.global_offers hdocs hm hx hname hresolve settings resolveModule? memo) ?_
    rintro name' decl' hname' hresolve'
    obtain rfl := Option.some_inj.mp (hname.symm.trans hname')
    cases hresolve.symm.trans hresolve'

end

/-! A local function, whose type never has the class of the local. -/

/-- The program `local function f() end f.x = 1`. -/
def Draft.localFunctionField : Draft where
  nodes := #[.nameDef "f", .block [], .localFuncDef 0 ⟨[], false, 1⟩, .nameRef "f",
    .index 3 (.dot "x"), .literal (.number "1"), .assign [4] [5], .block [2, 6]]
  files := #[⟨"a.lua", 7, false⟩]

/-- The class of the local `f`. -/
def Draft.localFunctionClass : String := localClassName "a.lua" 2

/-- The member `x`. -/
def Draft.localFunctionMember : MemberDecl :=
  ⟨"x", localFunctionClass, .assign 4, 0, 5, false, false⟩

theorem Draft.localFunctionField_treeShaped : localFunctionField.TreeShaped where
  acyclic := .of_descending (by decide)
  nodup := by decide

theorem Draft.localFunctionField_doc? (id : NodeId) : localFunctionField.build.doc? id = none := by
  simp [Program.doc?, build, localFunctionField]

theorem Draft.localFunctionMember_mem :
    localFunctionMember ∈ (Index.ofProgram localFunctionField.build).membersOf localFunctionClass := by
  refine Index.mem_membersOf_ofProgram.mpr ⟨rfl, ⟨0, "a.lua", 7, false⟩, by decide, 6, by decide, ?_⟩
  exact List.mem_append_right _ (List.mem_append_left _ (List.mem_singleton.mpr rfl))

theorem Draft.TreeShaped.offers_iff_localFunction :
    let env := Env.ofProgram Draft.localFunctionField.build {}
    (infer env 3 { memo := {} }).1.Offers Draft.localFunctionClass ↔
      env.VariableOffers {} Draft.localFunctionClass 3 := by
  have hdocs : Draft.localFunctionField.build.WellFormed := by
    intro id doc hdoc
    rw [Draft.localFunctionField_doc?] at hdoc
    cases hdoc
  exact Draft.localFunctionField_treeShaped.offers_iff hdocs Draft.localFunctionMember_mem rfl {} _ {}

/-- The member `x` is filed under the class of `f`, and `f` does not have the class, though no limit
is hit on the way to its type. -/
theorem Draft.localFunctionField_not_offers :
    let env := Env.ofProgram localFunctionField.build {}
    let (ty, s) := infer env 3 { memo := {} }
    localFunctionField.TreeShaped ∧
      (∃ m ∈ env.index.membersOf localFunctionClass, m.through? env.program = some 3) ∧
      s.guard.hitLimit = false ∧ s.chainDepth.hitLimit = false ∧ ¬ty.Offers localFunctionClass := by
  intro env
  have hstmt : (Query.answer env (.value 2 (.nth 0))).Yields env [.node 2, .node 0, .node 3]
      (.func ⟨false, [], none, .void, []⟩ []) 0 := by
    have hnode : env.program.node? 2 = some (.localFuncDef 0 ⟨[], false, 1⟩) := rfl
    have hbody : bodyReturnTy env 1 = pure .void := rfl
    change (functionTy env 2).Yields _ _ _ _
    rw [functionTy_bare hnode rfl (localFunctionField_doc? 2), hbody]
    exact .pure _
  have hdecl : (Query.answer env (.value 0 (.nth 0))).Yields env [.node 0, .node 3] _ _ :=
    .ask rfl (by decide) (by decide) hstmt
  have hname : (Query.answer env (.value 3 (.nth 0))).Yields env [.node 3] _ _ :=
    .ask rfl (by decide) (by decide) hdecl
  have hinfer : (ask (.value 3 (.nth 0))).Yields env [] _ _ :=
    .ask rfl (by decide) (by decide) hname
  obtain ⟨g, hrun, hlimit⟩ := hinfer.run (by decide) {}
  have hrun : infer env 3 { memo := {} }
      = (.func ⟨false, [], none, .void, []⟩ [], { memo := {}, guard := g }) := hrun
  rw [hrun]
  exact ⟨localFunctionField_treeShaped, ⟨_, localFunctionMember_mem, rfl⟩, hlimit, rfl,
    Ty.not_offers_func _ _⟩

end LuaTypes
