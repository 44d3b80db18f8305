import LuaTypes.Proofs.Nested

/-!
Single values. Several values together are a tuple, and only the result of a function is one: what is
picked of a result is a single value. This holds as long as every body returns several values in one
place only, for a union of two such results is no tuple of which a value can be picked, and as long
as no signature has type parameters, for they are bound to whole results.
-/

namespace LuaTypes

/-- The values in a signature. -/
def Signature.values (sig : Signature) : List Ty :=
  sig.params.map (·.ty) ++ sig.vararg?.toList ++ sig.ret.returned

/-- No tuple stands in the type but as the result of a function, and no function has type
parameters. -/
inductive Ty.Single : Ty → Prop
  | unknown : Single .unknown
  | invalid : Single .invalid
  | prim (p : Prim) : Single (.prim p)
  | cls {c : ClassTy} : (∀ f ∈ c.docFields, f.ty.Single) → Single (.cls c)
  | union {members : List Ty} : (∀ m ∈ members, m.Single) → Single (.union members)
  | generic {base : Ty} {args : List Ty} :
    base.Single → (∀ arg ∈ args, arg.Single) → Single (.generic base args)
  | func {main : Signature} {overloads : List Signature} :
    (∀ sig ∈ main :: overloads, sig.typeParams = []) →
    (∀ sig ∈ main :: overloads, ∀ v ∈ sig.values, v.Single) → Single (.func main overloads)
  | array {element : Ty} : element.Single → Single (.array element)

namespace Ty.Single

/-- Neither a tuple nor a union with one. -/
theorem ne_tuple {ty : Ty} (h : ty.Single) : ∀ m ∈ ty.each, ∀ items, m ≠ .tuple items := by
  have hne {ty : Ty} (h : ty.Single) (items : List Ty) : ty ≠ .tuple items := by
    rintro rfl
    cases h
  cases h with
  | union hmembers => exact fun m hm => hne (hmembers m hm)
  | _ =>
    intro m hm
    obtain rfl := List.mem_singleton.mp hm
    nofun

theorem unionAll {types : List Ty} (h : ∀ ty ∈ types, ty.Single) : (Ty.unionAll types).Single :=
  UnionBuilder.forall_unionAll .unknown .invalid (fun _ => ⟨fun | .union h => h, .union⟩) h

end Ty.Single

theorem Signature.of_single {sig : Signature} :
    sig.Of Ty.Single False ↔ sig.typeParams = [] ∧ ∀ v ∈ sig.values, v.Single := by
  simp only [values, List.forall_mem_append, List.forall_mem_map, Option.mem_toList]
  constructor
  · exact fun h => ⟨by simpa [isGeneric] using h.typeParams, ⟨h.params, h.vararg⟩, h.ret⟩
  · exact fun h => ⟨h.2.1.1, h.2.1.2, h.2.2, by simp [isGeneric, h.1]⟩

/-- Only a call has several values. -/
def single (p : Program) : TyInvariant where
  Holds := Ty.Single
  tuples := False
  alone id := ∀ callee args, p.node? id ≠ some (.call callee args)
  unknown := .unknown
  invalid := .invalid
  prim := .prim
  cls := ⟨fun | .cls h => h, .cls⟩
  generic := ⟨fun | .generic hbase hargs => ⟨hbase, hargs⟩, fun h => .generic h.1 h.2⟩
  func := by
    intro main overloads
    simp only [Signature.of_single]
    constructor
    · rintro (_ | _ | _ | _ | _ | _ | ⟨htypeParams, hvalues⟩)
      exact fun sig hsig => ⟨htypeParams sig hsig, hvalues sig hsig⟩
    · exact fun h => .func (fun sig hsig => (h sig hsig).1) fun sig hsig => (h sig hsig).2
  array := ⟨fun | .array h => h, .array⟩
  tuple := ⟨nofun, fun h => h.1.elim⟩
  member := fun | .union h => h
  unionAll := .unionAll

/-- The body returns several values in one place only, or nothing but single values that are no
calls. -/
def Program.SettlesReturns (p : Program) (block : NodeId) : Prop :=
  (∃ values, p.returnsOf block = [values] ∧ values.length ≠ 1) ∨
    ∀ values ∈ p.returnsOf block, ∃ value, values = [value] ∧
      ∀ callee args, p.node? value ≠ some (.call callee args)

/-- The comments hold no tuple but as the result of a function, and no type parameters; and the body
of every function without documented results settles what it returns. -/
structure Program.SingleValued (p : Program) : Prop where
  docs : ∀ id doc, p.doc? id = some doc → (∀ ty ∈ doc.types, ty.Single) ∧ doc.typeParams = [] ∧
    ∀ sig ∈ doc.overloads, sig.typeParams = []
  bodies : ∀ func node body, p.node? func = some node → node.funcBody? = some body →
    (p.functionDoc? func).elim [] (·.returns) = [] → p.SettlesReturns body.block

theorem Program.SingleValued.keeps {p : Program} (h : p.SingleValued) : p.Keeps (single p) := by
  intro id doc hdoc
  obtain ⟨htypes, htypeParams, hoverloads⟩ := h.docs id doc hdoc
  exact ⟨htypes, fun hne => hne htypeParams, fun sig hsig => by
    simp [Signature.isGeneric, hoverloads sig hsig]⟩

/-- The values of one return statement. -/
theorem returnedTy_single {p : Program} {values : List NodeId} (h : values.length ≠ 1) :
    (single p).asking.Ensures (fun ty => ∃ items, ty = .tuple items ∧ ∀ item ∈ items, item.Single)
      (returnedTy values) := by
  unfold returnedTy
  split
  · exact absurd rfl h
  · apply (single p).asking.bind
      ((single p).asking.mapM values fun value _ => Env.Keeps.valueTy value)
    intro types htypes
    exact (single p).asking.pure ⟨types, rfl, htypes⟩

/-- A body that settles what it returns gives a result that values can be picked of. -/
theorem bodyReturnTy_single (env : Env) {block : NodeId} (h : env.program.SettlesReturns block) :
    (single env.program).asking.Ensures (single env.program).Returns (bodyReturnTy env block) := by
  have hvoid : (single env.program).Returns .void := TyInvariant.Holds.returned (.prim .void)
  unfold bodyReturnTy
  dsimp only
  split
  · exact (single env.program).asking.pure hvoid
  · rcases h with ⟨values, hreturns, hlength⟩ | hreturns
    · rw [hreturns, Asking.unionOf]
      split
      · exact (single env.program).asking.pure (TyInvariant.Holds.returned .unknown)
      · rw [List.foldlM_cons]
        -- The one tuple is joined with nothing else, so it stays a tuple.
        apply (single env.program).asking.bind (P := (single env.program).Returns)
        · apply (single env.program).asking.bind (returnedTy_single hlength)
          rintro _ ⟨items, rfl, hitems⟩
          exact (single env.program).asking.pure hitems
        · exact fun _ hty => (single env.program).asking.pure hty
    · have hsingle : (Asking.unionOf env returnedTy (env.program.returnsOf block)).Keeps
          (single env.program) := by
        apply (single env.program).discipline.unionOf .unknown
        intro ty hty values hvalues
        obtain ⟨value, rfl, hcall⟩ := hreturns values hvalues
        apply (single env.program).asking.imp
          ((single env.program).discipline.ask (q := .value value .all) trivial)
        exact fun found hfound => TyInvariant.Holds.join hty (hfound.2 hcall)
      exact (single env.program).asking.imp hsingle fun _ hty => hty.returned

/-- However many values are asked for in one request, at whatever positions, none is a tuple or a
union with one. -/
theorem Program.SingleValued.inferAt_ne_tuple {p : Program} (h : p.SingleValued) (ready : Bool)
    (settings : Settings) (resolveModule? : String → Option FileId) (cancelled : Bool)
    (memo : ClassMemo) (queries : List (NodeId × Nat)) :
    let env : Env := ⟨p, { Index.ofProgram p with ready }, settings, resolveModule?, cancelled⟩
    ∀ ty ∈ ((queries.mapM fun q => inferAt env q.1 q.2) { memo }).1,
      ∀ m ∈ ty.each, ∀ items, m ≠ .tuple items := by
  intro env
  have henv : env.Keeps (single p) :=
    { calls := fun _ callee args hcall halone => halone callee args hcall
      program := h.keeps
      index := .ofProgram h.keeps ready
      bodies := fun func node body hnode hbody hdoc =>
        bodyReturnTy_single env (h.bodies func node body hnode hbody hdoc) }
  have hqueries : (single p).infer.Ensures (fun types => ∀ ty ∈ types, ty.Single)
      (queries.mapM fun q => inferAt env q.1 q.2) :=
    (single p).infer.mapM queries fun q _ => henv.inferPick q.1 (.nth q.2)
  exact fun ty hty => ((hqueries _ ((single p).state_new memo)).1 ty hty).ne_tuple

/-- The program `local function f() return 1, "s" end f()`. -/
def Draft.pairReturned : Draft where
  nodes := #[.nameDef "f", .literal (.number "1"), .literal (.string "s"), .ret [1, 2], .block [3],
    .localFuncDef 0 ⟨[], false, 4⟩, .nameRef "f", .call 6 [], .exprStat 7, .block [5, 8]]
  files := #[⟨"pair.lua", 9, false⟩]

theorem Program.SingleValued.inferAt_ne_tuple_pairReturned :
    Draft.pairReturned.build.SingleValued ∧
    let env : Env := ⟨Draft.pairReturned.build,
      { Index.ofProgram Draft.pairReturned.build with ready := true }, {},
      Draft.pairReturned.build.resolveModule?, false⟩
    ∀ ty ∈ (([(7, 0), (7, 1)].mapM fun q => inferAt env q.1 q.2) { memo := {} }).1,
      ∀ m ∈ ty.each, ∀ items, m ≠ .tuple items := by
  have hsingle : Draft.pairReturned.build.SingleValued := by
    constructor
    · intro id doc hdoc
      simp [Program.doc?, Draft.build, Draft.pairReturned] at hdoc
    · intro func node body hnode hbody _
      have hbound : func < Draft.pairReturned.build.nodes.size :=
        Program.node?_lt (by simp [hnode])
      have hblocks : ∀ id < Draft.pairReturned.build.nodes.size,
          ((Draft.pairReturned.build.node? id).bind Node.funcBody?).all (·.block == 4) = true := by
        decide
      have hblock : body.block = 4 := by simpa [hnode, hbody] using hblocks func hbound
      rw [hblock]
      exact .inl ⟨[1, 2], rfl, by decide⟩
  exact ⟨hsingle, hsingle.inferAt_ne_tuple true {} _ false {} [(7, 0), (7, 1)]⟩

/-! Two return statements. -/

/-- The program `local function f() if c then return 1, 2 end return 3, 4, 5 end f()`. -/
def Draft.severalReturns : Draft where
  nodes := #[.nameDef "f", .nameRef "c", .literal (.number "1"), .literal (.number "2"), .ret [2, 3],
    .block [4], .ifStat 1 5 none, .literal (.number "3"), .literal (.number "4"),
    .literal (.number "5"), .ret [7, 8, 9], .block [6, 10], .localFuncDef 0 ⟨[], false, 11⟩,
    .nameRef "f", .call 13 [], .exprStat 14, .block [12, 15]]
  files := #[⟨"several.lua", 16, false⟩]

abbrev Draft.severalEnv : Env := .ofProgram severalReturns.build {}

/-- The result of `f`. -/
def Draft.severalTy : Ty := .union [.tuple [.number, .number, .number], .tuple [.number, .number]]

/-- The questions in progress while the type of the function is found out. -/
abbrev Draft.severalKeys : List Key := [.node 12, .node 0, .node 13, .node 14]

theorem Draft.severalReturns_doc? (id : NodeId) : severalReturns.build.doc? id = none := by
  simp [Program.doc?, build, severalReturns]

theorem Draft.severalReturns_function : (functionTy severalEnv 12).Yields severalEnv severalKeys
    (.func ⟨false, [], none, severalTy, []⟩ []) 5 := by
  have hnumber : ∀ id ∈ [7, 8, 9, 2, 3],
      (valueTy id).Yields severalEnv severalKeys .number (1 + 0) := by
    have hfresh : ∀ id ∈ [7, 8, 9, 2, 3], Key.node id ∉ severalKeys := by decide
    intro id hid
    have hliteral : (Query.answer severalEnv (.value id (.nth 0))).Yields severalEnv
        (.node id :: severalKeys) .number 0 := by
      simp only [List.mem_cons, List.not_mem_nil, or_false] at hid
      rcases hid with rfl | rfl | rfl | rfl | rfl <;> exact .pure _
    exact .ask rfl (hfresh id hid) (by decide) hliteral
  have hthree : (returnedTy [7, 8, 9]).Yields severalEnv severalKeys
      (.tuple [.number, .number, .number]) 3 :=
    returnedTy_yields (by decide) (fun _ => .number)
      fun id hid => hnumber id (List.mem_append_left [2, 3] hid)
  have htwo : (returnedTy [2, 3]).Yields severalEnv severalKeys (.tuple [.number, .number]) 2 :=
    returnedTy_yields (by decide) (fun _ => .number)
      fun id hid => hnumber id (List.mem_append_right [7, 8, 9] hid)
  have hbody : bodyReturnTy severalEnv 11 =
      (do return (Ty.unknown.join (← returnedTy [7, 8, 9])).join (← returnedTy [2, 3])) := rfl
  have hnode : severalEnv.program.node? 12 = some (.localFuncDef 0 ⟨[], false, 11⟩) := rfl
  rw [functionTy_bare hnode rfl (severalReturns_doc? 12), hbody]
  apply Asking.Yields.bind (n := 5) (m := 0) (a := severalTy)
  · apply Asking.Yields.bind (n := 3) (m := 2) hthree
    apply Asking.Yields.bind (n := 2) (m := 0) htwo
    exact .pure _
  · exact .pure _

/-- The first value of the call is a union of tuples, though the program has no comments. -/
theorem Draft.severalReturns_tuple :
    (∀ id, severalEnv.program.doc? id = none) ∧
      ∃ m ∈ (infer severalEnv 14 { memo := {} }).1.each, ∃ items, m = .tuple items := by
  have hdecl : (Query.answer severalEnv (.value 0 (.nth 0))).Yields severalEnv
      [.node 0, .node 13, .node 14] _ _ :=
    .ask rfl (by decide) (by decide) severalReturns_function
  have hname : (Query.answer severalEnv (.value 13 (.nth 0))).Yields severalEnv
      [.node 13, .node 14] _ _ :=
    .ask rfl (by decide) (by decide) hdecl
  have hcallee : (valueTy 13).Yields severalEnv [.node 14] _ _ :=
    .ask rfl (by decide) (by decide) hname
  have hcall : (Query.answer severalEnv (.value 14 (.nth 0))).Yields severalEnv [.node 14]
      severalTy 8 := by
    have hcallTy : Query.answer severalEnv (.value 14 (.nth 0))
        = callTy severalEnv 13 [] (.nth 0) := rfl
    have hrequire : (severalEnv.program.usedName? 13).any severalEnv.settings.isRequireLike = false := by
      decide
    have hret : calleeRet severalEnv (callOf severalEnv 13 []) (.nth 0)
        (.func ⟨false, [], none, severalTy, []⟩ []) = pure severalTy := rfl
    rw [hcallTy, callTy, hrequire]
    apply Asking.Yields.bind (n := 8) (m := 0) hcallee
    rw [hret]
    apply Asking.Yields.bind (n := 0) (m := 0) (.pure _)
    exact .pure _
  have hinfer : (ask (.value 14 (.nth 0))).Yields severalEnv [] _ _ :=
    .ask rfl (by decide) (by decide) hcall
  obtain ⟨g, hrun, -⟩ := hinfer.run (by decide) {}
  have hrun : infer severalEnv 14 { memo := {} } = (severalTy, { memo := {}, guard := g }) := hrun
  rw [hrun]
  exact ⟨severalReturns_doc?, _, List.mem_cons_self, _, rfl⟩

end LuaTypes
