import LuaTypes.Infer.Answer
import LuaTypes.Proofs.Equality
import LuaTypes.Proofs.Nested

/-!
Members and variables. A member is filed under the class that its receiver names, and is found where
the type of the receiver has that class. For globals the two agree; so they do for locals with a
class tag, for numeric loop variables, and for locals whose value is no table literal. A comment that
gives another type to a local with a table literal hides the class of the literal, and parameters,
local functions and the variables of other loops never have the class of the local.
-/

namespace LuaTypes

/-- The variable that a variable stands for: `self` stands for the receiver of the method. -/
def Program.meant (p : Program) (x : NodeId) : NodeId :=
  (if p.globalName? x == some selfWord then p.selfReceiver? x else none).getD x

/-- The names that are read to know a variable, the last one first. -/
def Program.namesRead (p : Program) (x : NodeId) : List Key :=
  if p.meant x = x then [.node x] else [.node (p.meant x), .node x]

namespace Env

variable (env : Env)

/-- The type that comments give to a local that a table literal initializes: that of the local, or
an array of the further arguments that the literal collects. -/
def commentedTy? (stmt : NodeId) (position : Nat) (table : NodeId) : Infer (Option Ty) := do
  match ← (if position = 0 then declaredTy? env stmt else pure none) with
  | some ty => return some ty
  | none =>
    match env.program.node? table with
    | some (.table fields) =>
      return (← (if collectsVararg env fields then varargTy? env table else pure none)).map .array
    | _ => return none

/-- The type of a declared name offers the members of a class that its local has, while the keys are
in progress. -/
def DeclarationOffers (memo : ClassMemo) (keys : List Key) (cls : String) (decl : NodeId)
    (name : String) : Prop :=
  match env.program.parent? decl with
  | none => False
  | some parent =>
    let position := fun ids : List NodeId => (ids.findIdx? (· == decl)).getD 0
    let documented := (paramTy env (env.program.functionDoc? parent) name { memo }).1
    match env.program.node? parent with
    | some (.localDef names values) =>
      ∀ table, values[position names]? = some table → env.program.isTable table = true →
        ∀ ty, (env.commentedTy? parent (position names) table { memo }).1 = some ty →
          (withLocalClass env decl name ty).Offers cls
    | some (.localFuncDef own _) => own ≠ decl ∧ documented.Offers cls
    | some (.forNum var ..) => var = decl
    | some (.forIn vars exprs _) =>
      ((loopVarTy exprs (position vars)).during env memo keys).Offers cls
    | some (.funcDef ..) | some (.methodDef ..) | some (.closure _) => documented.Offers cls
    | _ => False

/-- The type of a variable offers the members that are filed under its class. Globals always do. -/
def VariableOffers (memo : ClassMemo) (cls : String) (x : NodeId) : Prop :=
  ∀ name decl, env.program.usedName? (env.program.meant x) = some name →
    env.program.resolve? name (env.program.meant x) = some decl →
    env.DeclarationOffers memo (.node decl :: env.program.namesRead x) cls decl name

end Env

/-! Names. -/

namespace Program

variable {p : Program} {tagged : Std.HashMap String String} {x : NodeId} {cls name : String}

theorem node?_of_usedName? (h : p.usedName? x = some name) : p.node? x = some (.nameRef name) := by
  obtain ⟨node, hnode, hname⟩ := Option.bind_eq_some_iff.mp h
  cases node with
  | nameRef own =>
    obtain rfl : own = name := Option.some_inj.mp hname
    exact hnode
  | _ => cases hname

theorem globalName?_spec (h : p.globalName? x = some name) :
    p.usedName? x = some name ∧ p.resolve? name x = none := by
  obtain ⟨used, hused, h⟩ := Option.bind_eq_some_iff.mp h
  split at h
  · cases h
  · rename_i hresolve
    obtain rfl : used = name := Option.some_inj.mp h
    exact ⟨hused, by simpa using hresolve⟩

/-- `self` without a declaration names no class itself. -/
theorem variableClass?_self (h : p.globalName? x = some selfWord) :
    p.variableClass? tagged x = none := by
  obtain ⟨hused, hresolve⟩ := globalName?_spec h
  simp [variableClass?, hused, hresolve]

/-- A receiver names the class of the variable that it stands for. -/
theorem variableClass?_meant (h : p.receiverClass? tagged x = some cls) :
    p.variableClass? tagged (p.meant x) = some cls := by
  rw [receiverClass?] at h
  rw [meant]
  by_cases hself : p.globalName? x = some selfWord
  · rw [variableClass?_self hself, hself, beq_self_eq_true, if_pos rfl] at h
    obtain ⟨receiver, hreceiver, hclass⟩ := Option.bind_eq_some_iff.mp h
    rw [hself, beq_self_eq_true, if_pos rfl, hreceiver]
    exact hclass
  · have hne : (p.globalName? x == some selfWord) = false := by simpa using hself
    rw [hne] at h ⊢
    simpa using h

theorem exists_usedName? (h : p.receiverClass? tagged x = some cls) :
    ∃ name, p.usedName? x = some name := by
  cases hused : p.usedName? x with
  | some name => exact ⟨name, rfl⟩
  | none => simp [receiverClass?, variableClass?, globalName?, hused] at h

theorem exists_usedName?_meant (h : p.receiverClass? tagged x = some cls) :
    ∃ name, p.usedName? (p.meant x) = some name := by
  obtain ⟨name, hused, -⟩ := Option.bind_eq_some_iff.mp (variableClass?_meant h)
  exact ⟨name, hused⟩

/-- Where a variable stands for another one, it is `self` and that is the receiver. -/
theorem selfReceiver?_of_meant (h : p.meant x ≠ x) :
    p.globalName? x = some selfWord ∧ p.selfReceiver? x = some (p.meant x) := by
  rw [meant] at h ⊢
  by_cases hself : p.globalName? x = some selfWord
  · rw [hself, beq_self_eq_true, if_pos rfl] at h ⊢
    cases hreceiver : p.selfReceiver? x with
    | some receiver => exact ⟨rfl, rfl⟩
    | none => exact absurd (by simp [hreceiver]) h
  · have hne : (p.globalName? x == some selfWord) = false := by simpa using hself
    rw [hne] at h
    exact absurd rfl h

/-- Keys of names that are read, each once. -/
structure AreNames (p : Program) (keys : List Key) : Prop where
  nodup : keys.Nodup
  length : keys.length ≤ 2
  names : ∀ id, .node id ∈ keys → ∃ name, p.node? id = some (.nameRef name)
  nodes : ∀ key ∈ keys, ∃ id, key = .node id

theorem areNames_namesRead (h : p.receiverClass? tagged x = some cls) :
    p.AreNames (p.namesRead x) := by
  obtain ⟨name, hname⟩ := exists_usedName? h
  obtain ⟨name', hname'⟩ := exists_usedName?_meant h
  have hx := node?_of_usedName? hname
  have hmeant := node?_of_usedName? hname'
  rw [namesRead]
  split
  · exact ⟨by simp, by simp, by simp [hx], by simp⟩
  · rename_i hne
    exact ⟨by simpa using hne, by simp, by simp [hx, hmeant], by simp⟩

end Program

/-! Requests. -/

section

variable {env : Env} {memo : ClassMemo} {x : NodeId} {name : String}

/-- A variable has the type of the variable that it stands for. -/
theorem infer_meant (hcancelled : env.cancelled = false)
    (hname : env.program.usedName? (env.program.meant x) = some name) :
    (infer env x { memo }).1
      = (nameTy env (env.program.meant x) name).during env memo (env.program.namesRead x) := by
  have hask (id : NodeId) {keys : List Key} (hnodup : (.node id :: keys).Nodup)
      (hlength : keys.length ≤ 2) {name : String} (hname : env.program.usedName? id = some name) :
      (valueTy id).during env memo keys = (nameTy env id name).during env memo (.node id :: keys) := by
    have hroom : keys.length < maxInferDepth := Nat.lt_of_le_of_lt hlength (by decide)
    have hnode : nodeTy env id (.nth 0) = nameTy env id name := by
      unfold nodeTy
      rw [Program.node?_of_usedName? hname]
    rw [← hnode]
    exact Asking.ask_during (q := .value id (.nth 0)) hcancelled hnodup hroom
  have hinfer : (infer env x { memo }).1 = (valueTy x).during env memo [] := rfl
  rw [hinfer, Program.namesRead]
  split
  · rename_i heq
    rw [heq] at hname ⊢
    exact hask x (by simp) (by simp) hname
  · rename_i hne
    obtain ⟨hself, hreceiver⟩ := Program.selfReceiver?_of_meant hne
    obtain ⟨hused, hresolve⟩ := Program.globalName?_spec hself
    rw [hask x (by simp) (by simp) hused]
    have hread : nameTy env x selfWord = valueTy (env.program.meant x) := by
      unfold nameTy
      simp only [hresolve, hreceiver, if_true]
    rw [hread]
    exact hask _ (by simpa using hne) (by simp) hname

end

/-! Locals. -/

section

variable {env : Env} {memo : ClassMemo} {stmt decl : NodeId} {name cls : String} {keys : List Key}
variable {position : Nat} {values : List NodeId}

theorem hasTop_withLocalClass
    (h : env.index.hasMembers (localClassName (env.program.pathOf decl) (env.program.offset decl)))
    (ty : Ty) : (withLocalClass env decl name ty).HasTop
      (localClassName (env.program.pathOf decl) (env.program.offset decl)) := by
  dsimp only [withLocalClass]
  rw [if_pos h]
  exact Ty.hasTop_join_cls ty (.anonymous _ name)

theorem Ty.HasTop.withLocalClass {ty : Ty} (h : ty.HasTop cls) :
    (withLocalClass env decl name ty).HasTop cls := by
  dsimp only [LuaTypes.withLocalClass]
  split
  · exact h.join_left _
  · exact h

/-- The type of a local has whatever classes the class of the local is added to. -/
theorem localTy_ensures {P : Ty → Prop} (h : ∀ ty, P (withLocalClass env decl name ty)) :
    Discipline.free.asking.Ensures P (localTy env stmt decl name position values) := by
  apply Discipline.free.asking.bind (Discipline.free_ensures _)
  intro declared? _
  cases declared? with
  | some ty => exact Discipline.free.asking.pure (h ty)
  | none =>
    apply Discipline.free.asking.bind (Discipline.free_ensures _)
    intro ty _
    exact Discipline.free.asking.pure (h ty)

theorem not_offers_functionTy (func : NodeId) :
    Discipline.free.asking.Ensures (fun ty => ¬ty.Offers cls) (functionTy env func) := by
  unfold functionTy
  split
  · exact Discipline.free.asking.pure Ty.not_offers_unknown
  · split
    · exact Discipline.free.asking.pure Ty.not_offers_unknown
    · apply Discipline.free.asking.bind (Discipline.free_ensures _)
      intro params _
      apply Discipline.free.asking.bind (Discipline.free_ensures _)
      intro vararg? _
      apply Discipline.free.asking.bind (Discipline.free_ensures _)
      intro ret _
      exact Discipline.free.asking.pure (Ty.not_offers_func _ _)

/-! What comments say does not depend on the questions in progress. -/

/-- A type that is read in a comment is the same in every request with the memo, and where there is
none the request stays as it is. -/
def IsRead (x : Infer (Option Ty)) : Prop :=
  ∀ s, (x s).1 = (x { memo := s.memo }).1 ∧ ((x s).1 = none → (x s).2 = s)

theorem isRead_pure (ty? : Option Ty) : IsRead (pure ty?) := fun _ => ⟨rfl, fun _ => rfl⟩

theorem isRead_expand (ty : Ty) : IsRead (some <$> Infer.expand env ty) :=
  fun _ => ⟨rfl, fun h => nomatch h⟩

theorem isRead_declaredTy? (id : NodeId) : IsRead (declaredTy? env id) := by
  unfold declaredTy?
  split
  · exact isRead_pure none
  · split
    · exact isRead_pure _
    · exact isRead_expand _
    · exact isRead_pure none

theorem isRead_varargTy? (id : NodeId) : IsRead (varargTy? env id) := by
  unfold varargTy?
  split
  · exact isRead_expand _
  · exact isRead_pure none

theorem IsRead.ite {p : Prop} [Decidable p] {x : Infer (Option Ty)} (h : IsRead x) :
    IsRead (if p then x else pure none) := by
  split
  · exact h
  · exact isRead_pure none

theorem paramTy_memo (doc? : Option Doc) (name : String) (s : Request) :
    (paramTy env doc? name s).1 = (paramTy env doc? name { memo := s.memo }).1 := by
  unfold paramTy
  cases doc? >>= (·.paramTy? name) <;> rfl

theorem commentedTy?_eq {table : NodeId} {fields : List NodeId}
    (htable : env.program.node? table = some (.table fields)) :
    (env.commentedTy? stmt position table { memo }).1
      = ((if position = 0 then declaredTy? env stmt else pure none : Infer _) { memo }).1.or
          (((if collectsVararg env fields then varargTy? env table else pure none : Infer _)
            { memo }).1.map .array) := by
  have hdeclared : IsRead (if position = 0 then declaredTy? env stmt else pure none) :=
    (isRead_declaredTy? stmt).ite
  unfold Env.commentedTy?
  simp only [htable]
  generalize (if position = 0 then declaredTy? env stmt else pure none : Infer _) = declared
    at hdeclared ⊢
  have hstate := (hdeclared { memo }).2
  simp only [bind, StateT.bind]
  rcases hrun : declared { memo } with ⟨ty?, s⟩
  rw [hrun] at hstate
  cases ty? with
  | some ty => rfl
  | none =>
    obtain rfl : s = { memo } := hstate rfl
    rfl

theorem tableTy_eq (table : NodeId) (fields : List NodeId) (s : Request) :
    (tableTy env table fields s).1
      = (((if collectsVararg env fields then varargTy? env table else pure none : Infer _)
          { memo := s.memo }).1.map .array).getD (literalClassTy env table fields) := by
  have hvararg : IsRead (if collectsVararg env fields then varargTy? env table else pure none) :=
    (isRead_varargTy? table).ite
  unfold tableTy
  generalize (if collectsVararg env fields then varargTy? env table else pure none : Infer _) = vararg
    at hvararg ⊢
  rw [← (hvararg s).1]
  simp only [bind, StateT.bind]
  rcases vararg s with ⟨ty?, s⟩
  cases ty? <;> rfl

/-- A local that a table literal initializes has the type that comments give it, else the class of
the literal. -/
theorem localTy_table (hcancelled : env.cancelled = false) {table : NodeId} {fields : List NodeId}
    (hvalue : values[position]? = some table) (htable : env.program.node? table = some (.table fields))
    (hfresh : (Key.node table :: keys).Nodup) (hroom : keys.length < maxInferDepth) :
    (localTy env stmt decl name position values).during env memo keys
      = withLocalClass env decl name
          ((env.commentedTy? stmt position table { memo }).1.getD (literalClassTy env table fields)) := by
  have hdeclared : IsRead (if position = 0 then declaredTy? env stmt else pure none) :=
    (isRead_declaredTy? stmt).ite
  rw [commentedTy?_eq htable]
  have hlisted : listedTy values position = ask (.value table (.nth 0)) := by
    unfold listedTy
    rw [hvalue]
    rfl
  have hvalueTy : (ask (.value table (.nth 0))).during env memo keys
      = (((if collectsVararg env fields then varargTy? env table else pure none : Infer _)
          { memo }).1.map .array).getD (literalClassTy env table fields) := by
    rw [Asking.ask_during hcancelled (q := .value table (.nth 0)) hfresh hroom]
    have hnode : nodeTy env table (.nth 0) = (tableTy env table fields : Asking Ty) := by
      unfold nodeTy
      rw [htable]
    rw [Query.answer, hnode]
    exact tableTy_eq table fields _
  unfold localTy
  rw [hlisted]
  generalize (if position = 0 then declaredTy? env stmt else pure none : Infer _) = declared
    at hdeclared ⊢
  obtain ⟨hval, hstate⟩ := hdeclared (.during memo keys)
  have hval : (declared (.during memo keys)).1 = (declared { memo }).1 := hval
  have hbind (f : Option Ty → Asking Ty) : ((liftM declared : Asking (Option Ty)) >>= f).during env memo keys
      = ((f (declared (.during memo keys)).1 (declared (.during memo keys)).2).finish
          (answerWithin env (maxInferDepth - keys.length))).1 := rfl
  rw [← hval, hbind]
  cases hty : (declared (.during memo keys)).1 with
  | some ty => rfl
  | none =>
    rw [hstate hty, Option.none_or, ← hvalueTy]
    exact Asking.during_map (withLocalClass env decl name) _

theorem declaredTy?_tagged {c : DocClass} (h : env.program.docClass? stmt = some c) :
    declaredTy? env stmt = pure (some c.ty) := by
  obtain ⟨doc, hdoc, hclass⟩ := Option.bind_eq_some_iff.mp h
  unfold declaredTy?
  rw [hdoc]
  simp only [hclass]

theorem localTy_tagged {c : DocClass} (h : env.program.docClass? stmt = some c) :
    localTy env stmt decl name 0 values = pure (withLocalClass env decl name c.ty) := by
  unfold localTy
  rw [if_pos rfl, declaredTy?_tagged h]
  rfl

theorem commentedTy?_tagged {c : DocClass} (h : env.program.docClass? stmt = some c)
    (table : NodeId) (s : Request) : (env.commentedTy? stmt 0 table s).1 = some c.ty := by
  unfold Env.commentedTy?
  rw [if_pos rfl, declaredTy?_tagged h]
  rfl

end

/-! Declarations. -/

section

variable {env : Env} {memo : ClassMemo} {decl : NodeId} {name : String} {keys : List Key}

theorem Program.exists_fields {p : Program} {table : NodeId} (h : p.isTable table = true) :
    ∃ fields, p.node? table = some (.table fields) := by
  unfold Program.isTable at h
  cases hnode : p.node? table with
  | none => simp [hnode] at h
  | some node =>
    rw [hnode, Option.any_some] at h
    cases node with
    | table fields => exact ⟨fields, rfl⟩
    | _ => cases h

theorem localClass_of_localDef {p : Program} {stmt : NodeId} {names values : List NodeId}
    (hparent : p.parent? decl = some stmt) (hnode : p.node? stmt = some (.localDef names values))
    {position : Nat} (hposition : (names.findIdx? (· == decl)).getD 0 = position) :
    (∃ c, position = 0 ∧ p.docClass? stmt = some c ∧ p.localClass decl = c.name) ∨
      (∃ table, values[position]? = some table ∧ p.isTable table = true ∧
        p.localClass decl = tableClassName (p.pathOf decl) (p.offset table)) ∨
      ((∀ table, values[position]? = some table → p.isTable table = false) ∧
        p.localClass decl = localClassName (p.pathOf decl) (p.offset decl)) := by
  unfold Program.localClass
  simp only [hparent, hnode, hposition]
  cases htag : (if position = 0 then p.docClass? stmt else none) with
  | some c =>
    split at htag
    · rename_i hzero
      exact .inl ⟨c, hzero, htag, rfl⟩
    · cases htag
  | none =>
    cases hvalue : values[position]? with
    | none => exact .inr (.inr ⟨nofun, rfl⟩)
    | some value =>
      cases htable : p.isTable value with
      | true => exact .inr (.inl ⟨value, rfl, htable, by simp [htable]⟩)
      | false =>
        refine .inr (.inr ⟨?_, by simp [htable]⟩)
        rintro _ ⟨⟩
        exact htable

/-- The type of a local offers the members of its class unless a comment gives it another one in
place of the class of its table literal. -/
theorem localTy_offers_iff (hcancelled : env.cancelled = false) {stmt : NodeId}
    {names values : List NodeId} (hparent : env.program.parent? decl = some stmt)
    (hnode : env.program.node? stmt = some (.localDef names values))
    (hmembers : env.index.hasMembers (env.program.localClass decl) = true)
    (hfile : ∀ table ∈ values, env.program.isTable table = true →
      ∃ file, env.program.fileOf? table = some file ∧ file.path = env.program.pathOf decl)
    (hfresh : ∀ table, env.program.isTable table = true → (Key.node table :: keys).Nodup)
    (hroom : keys.length < maxInferDepth) {position : Nat}
    (hposition : (names.findIdx? (· == decl)).getD 0 = position) :
    ((localTy env stmt decl name position values).during env memo keys).Offers
        (env.program.localClass decl) ↔
      ∀ table, values[position]? = some table → env.program.isTable table = true →
        ∀ ty, (env.commentedTy? stmt position table { memo }).1 = some ty →
          (withLocalClass env decl name ty).Offers (env.program.localClass decl) := by
  -- A class tag comes first, then a table literal; otherwise the local has a class of its own.
  rcases localClass_of_localDef hparent hnode hposition with ⟨c, rfl, htag, hclass⟩ |
    ⟨table, hvalue, htable, hclass⟩ | ⟨hvalue, hclass⟩
  · rw [hclass]
    have htop : (withLocalClass env decl name c.ty).Offers c.name :=
      .inr (Ty.hasTop_cls (.declared c.name c.details)).withLocalClass
    rw [localTy_tagged htag]
    refine ⟨fun _ table _ _ ty hty => ?_, fun _ => htop⟩
    rw [commentedTy?_tagged htag] at hty
    obtain rfl := Option.some_inj.mp hty
    exact htop
  · obtain ⟨fields, hfields⟩ := Program.exists_fields htable
    rw [localTy_table hcancelled hvalue hfields (hfresh table htable) hroom]
    cases hty : (env.commentedTy? stmt position table { memo }).1 with
    | some ty =>
      constructor
      · intro h table' hvalue' _ ty' hty'
        obtain rfl := Option.some_inj.mp (hvalue.symm.trans hvalue')
        obtain rfl := Option.some_inj.mp (hty.symm.trans hty')
        exact h
      · exact fun h => h table hvalue htable ty hty
    | none =>
      have hliteral : (literalClassTy env table fields).HasTop (env.program.localClass decl) := by
        obtain ⟨file, hfile, hpath⟩ := hfile table (List.mem_of_getElem? hvalue) htable
        rw [literalClassTy, hfile, hclass, ← hpath]
        exact Ty.hasTop_cls _
      refine ⟨fun _ table' hvalue' _ ty' hty' => ?_, fun _ => .inr hliteral.withLocalClass⟩
      obtain rfl := Option.some_inj.mp (hvalue.symm.trans hvalue')
      rw [hty] at hty'
      cases hty'
  · rw [hclass] at hmembers ⊢
    have htop : ((localTy env stmt decl name position values).during env memo keys).HasTop
        (localClassName (env.program.pathOf decl) (env.program.offset decl)) :=
      Asking.during_free (localTy_ensures (hasTop_withLocalClass hmembers))
    refine ⟨fun _ table hvalue' htable => ?_, fun _ => .inr htop⟩
    rw [hvalue table hvalue'] at htable
    cases htable

theorem offers_paramTy (doc? : Option Doc) (cls : String) :
    ((paramTy env doc? name : Asking Ty).during env memo keys).Offers cls ↔
      (paramTy env doc? name { memo }).1.Offers cls := by
  have hval : (paramTy env doc? name : Asking Ty).during env memo keys
      = (paramTy env doc? name { memo }).1 := paramTy_memo doc? name (.during memo keys)
  rw [hval]

/-- No declaration is in progress while names are read. -/
theorem Program.AreNames.declared {p : Program} {keys : List Key} (h : p.AreNames keys)
    (hdecl : p.node? decl = some (.nameDef name)) : (Key.node decl :: keys).Nodup := by
  refine List.nodup_cons.mpr ⟨fun hmem => ?_, h.nodup⟩
  obtain ⟨used, hnode⟩ := h.names decl hmem
  rw [hdecl] at hnode
  cases hnode

/-- What is in progress while a declaration is read: the declaration, and the names read before. -/
theorem Program.AreNames.fresh {p : Program} {keys : List Key} (h : p.AreNames keys)
    (hdecl : p.node? decl = some (.nameDef name)) {id : NodeId}
    (hused : ∀ name, p.node? id ≠ some (.nameRef name))
    (hdeclared : ∀ name, p.node? id ≠ some (.nameDef name)) :
    (Key.node id :: Key.node decl :: keys).Nodup := by
  refine List.nodup_cons.mpr ⟨fun hmem => ?_, h.declared hdecl⟩
  rcases List.mem_cons.mp hmem with heq | hmem
  · obtain rfl := Key.node.inj heq
    exact hdeclared name hdecl
  · obtain ⟨used, hnode⟩ := h.names id hmem
    exact hused used hnode

/-- The type of a declared name offers the members of the class of its local under the condition that
is stated for its kind of declaration. -/
theorem declarationTy_offers_iff (hcancelled : env.cancelled = false)
    (hkeys : env.program.AreNames keys) (hdecl : env.program.node? decl = some (.nameDef name))
    (hmembers : env.index.hasMembers (env.program.localClass decl) = true)
    (hfile : ∀ stmt, env.program.parent? decl = some stmt → ∀ table,
      env.program.HasChild stmt table → env.program.isTable table = true →
      ∃ file, env.program.fileOf? table = some file ∧ file.path = env.program.pathOf decl) :
    ((declarationTy env decl name).during env memo (.node decl :: keys)).Offers
        (env.program.localClass decl) ↔
      env.DeclarationOffers memo (.node decl :: keys) (env.program.localClass decl) decl name := by
  have hroom : (Key.node decl :: keys).length < maxInferDepth :=
    Nat.lt_of_le_of_lt (Nat.succ_le_succ hkeys.length) (by decide)
  have hunknown : ¬Ty.unknown.Offers (env.program.localClass decl) := Ty.not_offers_unknown
  unfold declarationTy Env.DeclarationOffers
  cases hparent : env.program.parent? decl with
  | none => exact iff_of_false hunknown id
  | some stmt =>
    dsimp only
    cases hnode : env.program.node? stmt with
    | none => exact iff_of_false hunknown id
    | some node =>
      cases node with
      | localDef names values =>
        refine localTy_offers_iff hcancelled hparent hnode hmembers (fun table hmem => ?_)
          (fun table htable => ?_) hroom rfl
        · exact hfile stmt hparent table ⟨_, hnode, List.mem_append_right names hmem⟩
        · obtain ⟨fields, hfields⟩ := Program.exists_fields htable
          exact hkeys.fresh hdecl (by simp [hfields]) (by simp [hfields])
      | localFuncDef own body =>
        dsimp only
        split
        · rename_i hown
          have hfunc : (valueTy stmt).during env memo (.node decl :: keys)
              = (functionTy env stmt).during env memo (.node stmt :: .node decl :: keys) := by
            have hnodeTy : nodeTy env stmt (.nth 0) = functionTy env stmt := by
              unfold nodeTy
              rw [hnode]
            rw [← hnodeTy]
            exact Asking.ask_during (q := .value stmt (.nth 0)) hcancelled
              (hkeys.fresh hdecl (by simp [hnode]) (by simp [hnode])) hroom
          rw [hfunc]
          exact iff_of_false (Asking.during_free (not_offers_functionTy stmt)) fun h => h.1 hown
        · rename_i hown
          rw [offers_paramTy]
          exact ⟨fun h => ⟨hown, h⟩, fun h => h.2⟩
      | forNum var start stop step? body =>
        dsimp only
        split
        · rename_i hvar
          exact iff_of_true (.inl rfl) hvar
        · rename_i hvar
          exact iff_of_false hunknown hvar
      | forIn vars exprs body => exact Iff.rfl
      | funcDef _ _ | methodDef _ _ _ _ | closure _ => exact offers_paramTy _ _
      | _ => exact iff_of_false hunknown id

end

end LuaTypes
