import LuaTypes.Proofs.Bounded
import LuaTypes.Proofs.Folds
import LuaTypes.Proofs.Resolution

/-!
Return statements of functions. The walk down from the block of a function stops at the functions
within and at the statements that return a value. In a tree-shaped program it comes to the
statements whose innermost function is that one by the way up, but for those in the values of
another one.
-/

namespace LuaTypes

/-! The walk down. -/

namespace Program

variable {p : Program}

/-- The values of a return statement; any other node has none. -/
def returned (p : Program) (stmt : NodeId) : List NodeId :=
  match p.node? stmt with
  | some (.ret values) => values
  | _ => []

/-- The return statements with values below a node, functions within left out, where `room` levels
are left. Of several children the last comes first. -/
def returnStmtsWithin (p : Program) (room : Nat) (id : NodeId) : List NodeId :=
  match room with
  | 0 => []
  | room + 1 =>
    match p.node? id with
    | none => []
    | some node =>
      if node.isFunction then []
      else if p.returned id = [] then node.children.reverse.flatMap (p.returnStmtsWithin room)
      else [id]

/-- The return statements with values of a function's block. -/
def returnStmtsOf (p : Program) (block : NodeId) : List NodeId :=
  p.returnStmtsWithin p.nodes.size block

theorem returnsWithin_eq (room : Nat) (id : NodeId) :
    p.returnsWithin room id = (p.returnStmtsWithin room id).map p.returned := by
  induction room generalizing id with
  | zero => rfl
  | succ room ih =>
    have hbelow (children : List NodeId) : children.reverse.flatMap (p.returnsWithin room)
        = (children.reverse.flatMap (p.returnStmtsWithin room)).map p.returned := by
      rw [List.map_flatMap]
      exact congrArg children.reverse.flatMap (funext ih)
    simp only [returnsWithin, returnStmtsWithin]
    cases hnode : p.node? id with
    | none => rfl
    | some node =>
      cases node with
      | ret values =>
        cases values with
        | nil => simp [returned, hnode, Node.isFunction, Node.funcBody?, Node.children]
        | cons value values => simp [returned, hnode, Node.isFunction, Node.funcBody?]
      | funcDef | localFuncDef | methodDef | closure => rfl
      | _ =>
        have hnone : p.returned id = [] := by simp [returned, hnode]
        simp [hnone, hbelow, Node.isFunction, Node.funcBody?]

theorem returnsOf_eq (block : NodeId) :
    p.returnsOf block = (p.returnStmtsOf block).map p.returned :=
  returnsWithin_eq p.nodes.size block

/-- The walk goes on from the node to the child. -/
def Passes (p : Program) (id child : NodeId) : Prop :=
  ∃ node, p.node? id = some node ∧ node.isFunction = false ∧ p.returned id = [] ∧
    child ∈ node.children

theorem Passes.hasChild {id child : NodeId} (h : p.Passes id child) : p.HasChild id child := by
  obtain ⟨node, hnode, -, -, hchild⟩ := h
  exact ⟨node, hnode, hchild⟩

theorem contains_of_passes {id other : NodeId} (h : Relation.ReflTransGen p.Passes id other) :
    p.Contains id other :=
  Relation.ReflTransGen.mono (fun _ _ => Passes.hasChild) id other h

theorem isFunction_of_returned {id : NodeId} (h : p.returned id ≠ []) :
    (p.node? id).any (·.isFunction) = false := by
  unfold returned at h
  split at h
  · rename_i hnode
    rw [hnode]
    rfl
  · exact absurd rfl h

theorem node?_of_returned {id : NodeId} (h : p.returned id ≠ []) : p.node? id ≠ none := by
  intro hnone
  simp [returned, hnone] at h

theorem mem_returnStmtsWithin_succ {room : Nat} {id stmt : NodeId} :
    stmt ∈ p.returnStmtsWithin (room + 1) id ↔ (id = stmt ∧ p.returned stmt ≠ []) ∨
      ∃ child, p.Passes id child ∧ stmt ∈ p.returnStmtsWithin room child := by
  rw [returnStmtsWithin]
  cases hnode : p.node? id with
  | none =>
    refine iff_of_false List.not_mem_nil ?_
    rintro (⟨rfl, hvalue⟩ | ⟨child, hchild, -⟩)
    · exact node?_of_returned hvalue hnode
    · exact node?_of_hasChild hchild.hasChild hnode
  | some node =>
    have hpasses (child : NodeId) : p.Passes id child ↔
        node.isFunction = false ∧ p.returned id = [] ∧ child ∈ node.children := by
      simp [Passes, hnode]
    dsimp only
    split
    · rename_i hfunction
      refine iff_of_false List.not_mem_nil ?_
      rintro (⟨rfl, hvalue⟩ | ⟨child, hchild, -⟩)
      · simpa [hnode, hfunction] using isFunction_of_returned hvalue
      · exact Bool.false_ne_true (((hpasses child).mp hchild).1.symm.trans hfunction)
    · rename_i hplain
      split
      · rename_i hempty
        have hself : ¬(id = stmt ∧ p.returned stmt ≠ []) := by
          rintro ⟨rfl, hvalue⟩
          exact hvalue hempty
        simp only [or_iff_right hself, hpasses, Bool.eq_false_iff.mpr hplain, hempty, true_and,
          List.mem_flatMap, List.mem_reverse]
      · rename_i hvalue
        simp only [hpasses, hvalue, false_and, and_false, exists_false, or_false,
          List.mem_singleton]
        constructor
        · rintro rfl
          exact ⟨rfl, hvalue⟩
        · exact fun hself => hself.1.symm

/-- The walk comes to a statement along nodes that it goes on from. -/
theorem mem_returnStmtsWithin {room : Nat} {id stmt : NodeId} (h : p.FitsBelow room id) :
    stmt ∈ p.returnStmtsWithin room id
      ↔ Relation.ReflTransGen p.Passes id stmt ∧ p.returned stmt ≠ [] := by
  induction room generalizing id with
  | zero =>
    have hnode : p.node? id = none := Classical.not_not.mp h
    refine iff_of_false List.not_mem_nil ?_
    rintro ⟨hpath, hvalue⟩
    rcases Relation.ReflTransGen.cases_head hpath with rfl | ⟨child, hchild, -⟩
    · exact node?_of_returned hvalue hnode
    · exact node?_of_hasChild hchild.hasChild hnode
  | succ room ih =>
    have hbelow {child : NodeId} (hchild : p.Passes id child) :
        stmt ∈ p.returnStmtsWithin room child
          ↔ Relation.ReflTransGen p.Passes child stmt ∧ p.returned stmt ≠ [] := by
      obtain ⟨node, hnode, -, -, hmem⟩ := hchild
      exact ih (h.child hnode hmem)
    rw [mem_returnStmtsWithin_succ, Relation.ReflTransGen.cases_head_iff, or_and_right]
    refine or_congr_right ⟨?_, ?_⟩
    · rintro ⟨child, hchild, hmem⟩
      obtain ⟨hpath, hvalue⟩ := (hbelow hchild).mp hmem
      exact ⟨⟨child, hchild, hpath⟩, hvalue⟩
    · rintro ⟨⟨child, hchild, hpath⟩, hvalue⟩
      exact ⟨child, hchild, (hbelow hchild).mpr ⟨hpath, hvalue⟩⟩

theorem hasChild_block {func : NodeId} {node : Node} {body : FuncBody}
    (hnode : p.node? func = some node) (hbody : node.funcBody? = some body) :
    p.HasChild func body.block := by
  refine ⟨node, hnode, (Node.children_sublist_of_funcBody? hbody).subset ?_⟩
  exact List.mem_append_right _ (List.mem_singleton_self _)

/-- The statement returns a value, and this is the innermost function around it. -/
structure ReturnsFrom (p : Program) (func stmt : NodeId) : Prop where
  value : p.returned stmt ≠ []
  function : p.enclosingFunction? stmt = some func

end Program

/-! The way up. -/

namespace Draft

open Program (HasChild Passes ReturnsFrom)

variable {d : Draft}

theorem enclosingFunction?_eq (h : d.build.Acyclic) (id : NodeId) :
    d.build.enclosingFunction? id = (d.build.parent? id).bind fun parent =>
      if (d.build.node? parent).any (·.isFunction) then some parent
      else d.build.enclosingFunction? parent := by
  rw [Program.enclosingFunction?, ancestors_eq h]
  cases d.build.parent? id with
  | none => rfl
  | some parent =>
    rw [Option.elim_some, List.find?_cons, Option.bind_some]
    cases (d.build.node? parent).any (·.isFunction) <;> rfl

/-- A function is around the nodes that it is the innermost function of. -/
theorem transGen_of_enclosingFunction? (h : d.build.Acyclic) {id func : NodeId}
    (hfunc : d.build.enclosingFunction? id = some func) :
    Relation.TransGen d.build.HasChild func id := by
  induction id using induction_up h with
  | step id ih =>
    rw [enclosingFunction?_eq h] at hfunc
    obtain ⟨parent, hparent, hfunc⟩ := Option.bind_eq_some_iff.mp hfunc
    have hchild := hasChild_of_parent? hparent
    split at hfunc
    · obtain rfl : parent = func := Option.some_inj.mp hfunc
      exact .single hchild
    · exact (ih parent hparent hfunc).tail hchild

namespace TreeShaped

variable (h : d.TreeShaped)

include h

theorem reached_of_enclosingFunction? {id func : NodeId}
    (hfunc : d.build.enclosingFunction? id = some func) : d.build.Reached id := by
  rw [enclosingFunction?_eq h.acyclic] at hfunc
  obtain ⟨parent, hparent, -⟩ := Option.bind_eq_some_iff.mp hfunc
  obtain ⟨place, -, hplace, -⟩ := h.place?_parent hparent
  exact reached_of_place? hplace

/-- What contains a node besides itself contains its parent. -/
theorem contains_parent {above id parent : NodeId} (habove : d.build.Reached above)
    (hbelow : Relation.TransGen d.build.HasChild above id) (hnode : d.build.node? id ≠ none)
    (hparent : d.build.parent? id = some parent) : d.build.Contains above parent := by
  obtain ⟨other, hpath, hchild⟩ := Relation.TransGen.tail'_iff.mp hbelow
  have hother := h.parent?_eq (habove.below hpath) hchild hnode
  exact Option.some_inj.mp (hother.symm.trans hparent) ▸ hpath

/-- The innermost function around a node is in each function around it. -/
theorem contains_enclosingFunction? {above id func : NodeId} (habove : d.build.Reached above)
    (hfunction : (d.build.node? above).any (·.isFunction) = true)
    (hbelow : Relation.TransGen d.build.HasChild above id) (hnode : d.build.node? id ≠ none)
    (hfunc : d.build.enclosingFunction? id = some func) : d.build.Contains above func := by
  induction id using induction_up h.acyclic with
  | step id ih =>
    rw [enclosingFunction?_eq h.acyclic] at hfunc
    obtain ⟨parent, hparent, hfunc⟩ := Option.bind_eq_some_iff.mp hfunc
    have hcontains := h.contains_parent habove hbelow hnode hparent
    split at hfunc
    · obtain rfl : parent = func := Option.some_inj.mp hfunc
      exact hcontains
    · rename_i hplain
      have hstrictly : Relation.TransGen d.build.HasChild above parent := by
        rcases Relation.reflTransGen_iff_eq_or_transGen.mp hcontains with rfl | hstrictly
        · exact absurd hfunction hplain
        · exact hstrictly
      exact ih parent hparent hstrictly
        (Program.node?_of_hasChild (hasChild_of_parent? hparent)) hfunc

section

variable {func : NodeId} {node : Node} {body : FuncBody} (hfunc : d.build.Reached func)
  (hnode : d.build.node? func = some node) (hbody : node.funcBody? = some body)

include hfunc hnode hbody

/-- The walk stays where the function is the innermost one. -/
theorem enclosingFunction?_of_passes {id : NodeId}
    (hpath : Relation.ReflTransGen d.build.Passes body.block id) (hid : d.build.node? id ≠ none) :
    d.build.enclosingFunction? id = some func := by
  have hblock : d.build.HasChild func body.block := Program.hasChild_block hnode hbody
  induction hpath with
  | refl =>
    rw [enclosingFunction?_eq h.acyclic, h.parent?_eq hfunc hblock hid, Option.bind_some, hnode]
    simp [Node.isFunction, hbody]
  | @tail parent child habove hpasses ih =>
    have hreached : d.build.Reached parent :=
      hfunc.below (.head hblock (Program.contains_of_passes habove))
    have hparent := h.parent?_eq hreached hpasses.hasChild hid
    obtain ⟨node', hnode', hplain, -⟩ := hpasses
    rw [enclosingFunction?_eq h.acyclic, hparent, Option.bind_some, hnode']
    simp only [Option.any_some, hplain, Bool.false_eq_true, if_false]
    exact ih (by simp [hnode'])

/-- The walk does not come to what is in the values of a statement that returns one from the
function. -/
theorem not_below_of_passes {id : NodeId}
    (hpath : Relation.ReflTransGen d.build.Passes body.block id) (hid : d.build.node? id ≠ none)
    {outer : NodeId} (houter : d.build.ReturnsFrom func outer) :
    ¬Relation.TransGen d.build.HasChild outer id := by
  have hblock : d.build.HasChild func body.block := Program.hasChild_block hnode hbody
  have hreached := h.reached_of_enclosingFunction? houter.function
  intro hbelow
  induction hpath with
  | refl =>
    have hcontains := h.contains_parent hreached hbelow hid (h.parent?_eq hfunc hblock hid)
    exact h.acyclic outer
      (.trans_right hcontains (transGen_of_enclosingFunction? h.acyclic houter.function))
  | @tail parent child habove hpasses ih =>
    have habove : d.build.Reached parent :=
      hfunc.below (.head hblock (Program.contains_of_passes habove))
    have hcontains := h.contains_parent hreached hbelow hid
      (h.parent?_eq habove hpasses.hasChild hid)
    rcases Relation.reflTransGen_iff_eq_or_transGen.mp hcontains with rfl | hbelow
    · obtain ⟨_, -, -, hempty, -⟩ := hpasses
      exact houter.value hempty
    · exact ih (Program.node?_of_hasChild hpasses.hasChild) hbelow

/-- The walk comes to a statement that returns a value from the function and is in the values of no
other one. -/
theorem passes_of_returnsFrom {stmt : NodeId} (hcontains : d.build.Contains body.block stmt)
    (hstmt : d.build.ReturnsFrom func stmt)
    (hfirst : ∀ outer, d.build.ReturnsFrom func outer →
      ¬Relation.TransGen d.build.HasChild outer stmt) :
    Relation.ReflTransGen d.build.Passes body.block stmt := by
  have hblock : d.build.HasChild func body.block := Program.hasChild_block hnode hbody
  have hfrom (id : NodeId) (hpath : Relation.ReflTransGen d.build.Passes body.block id)
      (hbelow : d.build.Contains id stmt) :
      Relation.ReflTransGen d.build.Passes body.block stmt := by
    induction hbelow using Relation.ReflTransGen.head_induction_on with
    | refl => exact hpath
    | @head id child hchild hbelow ih =>
      refine ih (hpath.tail ?_)
      have habove : Relation.TransGen d.build.HasChild func id :=
        .head' hblock (Program.contains_of_passes hpath)
      have hstrictly : Relation.TransGen d.build.HasChild id stmt := .head' hchild hbelow
      obtain ⟨node', hnode', hmem⟩ := hchild
      refine ⟨node', hnode', ?_, ?_, hmem⟩
      · -- A function on the way would be around the innermost one.
        refine Bool.eq_false_iff.mpr fun hfunction => h.acyclic func ?_
        refine habove.trans_left (h.contains_enclosingFunction? (hfunc.below habove.to_reflTransGen)
          ?_ hstrictly (Program.node?_of_returned hstmt.value) hstmt.function)
        simpa [hnode'] using hfunction
      · refine Classical.byContradiction fun hvalue => hfirst id ⟨hvalue, ?_⟩ hstrictly
        exact h.enclosingFunction?_of_passes hfunc hnode hbody hpath (by simp [hnode'])
  exact hfrom body.block .refl hcontains

/-- The walk collects the statements in the body that return a value from the function, but for
those in the values of another one. -/
theorem mem_returnStmtsOf {stmt : NodeId} : stmt ∈ d.build.returnStmtsOf body.block ↔
    d.build.Contains body.block stmt ∧ d.build.ReturnsFrom func stmt ∧
      ∀ outer, d.build.ReturnsFrom func outer →
        ¬Relation.TransGen d.build.HasChild outer stmt := by
  rw [Program.returnStmtsOf, Program.mem_returnStmtsWithin (h.acyclic.fitsBelow body.block)]
  constructor
  · rintro ⟨hpath, hvalue⟩
    have hstmt := Program.node?_of_returned hvalue
    exact ⟨Program.contains_of_passes hpath,
      ⟨hvalue, h.enclosingFunction?_of_passes hfunc hnode hbody hpath hstmt⟩,
      fun outer houter => h.not_below_of_passes hfunc hnode hbody hpath hstmt houter⟩
  · rintro ⟨hcontains, hstmt, hfirst⟩
    exact ⟨h.passes_of_returnsFrom hfunc hnode hbody hcontains hstmt hfirst, hstmt.value⟩

end

/-- Of two statements that the walk collects, the later one in the source comes first. -/
theorem pairwise_returnStmtsWithin {room : Nat} {id : NodeId} (hfits : d.build.FitsBelow room id)
    (hid : d.build.Reached id) : (d.build.returnStmtsWithin room id).Pairwise
      fun later earlier => d.build.Before earlier later := by
  induction room generalizing id with
  | zero => exact .nil
  | succ room ih =>
    rw [Program.returnStmtsWithin]
    cases hnode : d.build.node? id with
    | none => exact .nil
    | some node =>
      dsimp only
      split
      · exact .nil
      · split
        · rw [List.pairwise_flatMap, List.pairwise_reverse]
          constructor
          · intro child hchild
            have hchild := List.mem_reverse.mp hchild
            exact ih (hfits.child hnode hchild) (hid.below (.single ⟨node, hnode, hchild⟩))
          · rw [List.pairwise_iff_forall_sublist]
            intro left right hsub later hlater earlier hearlier
            have hcollected {child stmt : NodeId} (hchild : child ∈ node.children)
                (hstmt : stmt ∈ d.build.returnStmtsWithin room child) :
                d.build.Contains child stmt ∧ d.build.node? stmt ≠ none := by
              obtain ⟨hpath, hvalue⟩ :=
                (Program.mem_returnStmtsWithin (hfits.child hnode hchild)).mp hstmt
              exact ⟨Program.contains_of_passes hpath, Program.node?_of_returned hvalue⟩
            obtain ⟨hleft, hfirst⟩ := hcollected (hsub.subset List.mem_cons_self) hearlier
            obtain ⟨hright, hsecond⟩ := hcollected (hsub.subset (by simp)) hlater
            exact h.before_of_children hid hnode hsub hleft hright hfirst hsecond
        · exact List.pairwise_singleton _ _

end TreeShaped

end Draft

/-! What the statements return. -/

/-- The union of what the return statements of a function return, void without any. -/
def Ty.ofReturns : List Ty → Ty
  | [] => .void
  | types => types.foldl Ty.join .unknown

/-- What is inferred for a return statement: all values of a single expression, or the tuple of the
values of several. -/
def returnedType (env : Env) : List NodeId → Infer Ty
  | [value] => inferTuple env value
  | values => return .tuple (← values.mapM (infer env))

/-- The type of a function without documented returns, given what its statements return. -/
def functionOf {m : Type → Type} [Monad m] [MonadLiftT Infer m] (env : Env) (func : NodeId)
    (node : Node) (body : FuncBody) (returned : m (List Ty)) : m Ty := do
  let doc? := env.program.functionDoc? func
  let params ← paramTys env doc? body.params
  let vararg? ← (if body.vararg then some <$> furtherTy env doc? else pure none : Infer _)
  return .func ⟨node.isColonMethod, params, vararg?, .ofReturns (← returned),
    doc?.elim [] (·.typeParams)⟩ (doc?.elim [] (·.overloads))

variable {env : Env}

theorem bodyReturnTy_eq (hcancelled : env.cancelled = false) (block : NodeId) :
    bodyReturnTy env block = (do
      return .ofReturns (← (env.program.returnsOf block).mapM returnedTy)) := by
  rw [bodyReturnTy, hcancelled]
  cases env.program.returnsOf block with
  | nil => rfl
  | cons values rest =>
    simp only [Bool.false_or, List.isEmpty_cons, Bool.false_eq_true, if_false]
    rw [Asking.unionOf_eq hcancelled]
    simp only [List.mapM_cons, bind_assoc, pure_bind, Ty.ofReturns]

theorem functionTy_eq {func : NodeId} {node : Node} {body : FuncBody}
    (hnode : env.program.node? func = some node) (hbody : node.funcBody? = some body)
    (hdoc : (env.program.functionDoc? func).elim [] (·.returns) = [])
    (hcancelled : env.cancelled = false) :
    functionTy env func = functionOf env func node body
      ((env.program.returnsOf body.block).mapM returnedTy) := by
  have hresult : resultTy env (env.program.functionDoc? func) body.block
      = bodyReturnTy env body.block := by
    rw [resultTy, hdoc]
  simp only [functionTy, functionOf, hnode, hbody, hresult, bodyReturnTy_eq hcancelled, bind_assoc,
    pure_bind]

theorem run_returnedTy (values : List NodeId) :
    (returnedTy values).run env = returnedType env values := by
  match values with
  | [value] => rfl
  | [] | _ :: _ :: _ =>
    simp only [returnedTy, returnedType, Asking.run_bind, Asking.run_mapM]
    rfl

theorem run_functionOf (func : NodeId) (node : Node) (body : FuncBody)
    (returned : Asking (List Ty)) : (functionOf env func node body returned).run env
      = functionOf env func node body (returned.run env) := by
  simp only [functionOf, Asking.run_bind]
  rfl

namespace Draft

variable {d : Draft}

/-- Without documented returns a function returns what the statements return, each one counted once,
that are in its body, have it as their innermost function, and are not in the values of another such
statement. -/
theorem TreeShaped.functionType_undocumented (h : d.TreeShaped) {func : NodeId}
    (hfunc : d.build.Reached func) {node : Node} (hnode : d.build.node? func = some node)
    {body : FuncBody} (hbody : node.funcBody? = some body)
    (hdoc : (d.build.functionDoc? func).elim [] (·.returns) = [])
    (hprogram : env.program = d.build) (hcancelled : env.cancelled = false) :
    let stmts := d.build.returnStmtsOf body.block
    stmts.Nodup ∧
    (∀ stmt, stmt ∈ stmts ↔ d.build.Contains body.block stmt ∧ d.build.ReturnsFrom func stmt ∧
      ∀ outer, d.build.ReturnsFrom func outer →
        ¬Relation.TransGen d.build.HasChild outer stmt) ∧
    functionType env func = functionOf env func node body
      (stmts.mapM fun stmt => returnedType env (d.build.returned stmt)) ∧
    functionTy env func = functionOf env func node body
      (stmts.mapM fun stmt => returnedTy (d.build.returned stmt)) := by
  intro stmts
  have hasked : functionTy env func = functionOf env func node body
      (stmts.mapM fun stmt => returnedTy (d.build.returned stmt)) := by
    rw [functionTy_eq (hprogram ▸ hnode) hbody (hprogram ▸ hdoc) hcancelled, hprogram,
      Program.returnsOf_eq, List.mapM_map]
    rfl
  refine ⟨?_, fun stmt => h.mem_returnStmtsOf hfunc hnode hbody, ?_, hasked⟩
  · have hreached := hfunc.below (.single (Program.hasChild_block hnode hbody))
    have hordered := h.pairwise_returnStmtsWithin (h.acyclic.fitsBelow body.block) hreached
    refine hordered.imp fun hbefore heq => ?_
    subst heq
    exact hbefore.irrefl
  · rw [functionType, hasked, run_functionOf, Asking.run_mapM]
    simp only [run_returnedTy]

/-- The program `local function f(c) while c do if c then return 1 end end
local g = function() return "s" end return true, nil end`. -/
def severalBranches : Draft where
  nodes := #[.nameDef "f", .nameDef "c", .nameRef "c", .nameRef "c", .literal (.number "1"),
    .ret [4], .block [5], .ifStat 3 6 none, .block [7], .whileStat 2 8, .nameDef "g",
    .literal (.string "s"), .ret [11], .block [12], .closure ⟨[], false, 13⟩, .localDef [10] [14],
    .literal (.bool true), .literal .nil, .ret [16, 17], .block [9, 15, 18],
    .localFuncDef 0 ⟨[1], false, 19⟩, .block [20]]
  files := #[⟨"branches.lua", 21, false⟩]

theorem severalBranches_treeShaped : severalBranches.TreeShaped where
  acyclic := .of_descending (by decide)
  nodup := by decide

/-- The statement in the loop counts and the one in the function within does not. -/
theorem TreeShaped.functionType_severalBranches :
    let p := severalBranches.build
    let env : Env := .ofProgram p {}
    p.returnStmtsOf 19 = [18, 5] ∧ p.ReturnsFrom 20 5 ∧
    functionType env 20 = functionOf env 20 (.localFuncDef 0 ⟨[1], false, 19⟩) ⟨[1], false, 19⟩
      ([18, 5].mapM fun stmt => returnedType env (p.returned stmt)) := by
  intro p env
  have hreached : p.Reached 20 := ⟨0, _, rfl, .single ⟨_, rfl, List.mem_singleton_self 20⟩⟩
  have hdoc : (p.functionDoc? 20).elim [] (·.returns) = [] := by
    simp [p, Program.functionDoc?, Program.doc?, Program.node?, build, severalBranches]
  have hstmts : p.returnStmtsOf 19 = [18, 5] := by decide
  obtain ⟨-, hmem, htype, -⟩ := severalBranches_treeShaped.functionType_undocumented hreached
    rfl rfl hdoc (rfl : env.program = p) rfl
  rw [hstmts] at hmem htype
  exact ⟨hstmts, ((hmem 5).mp (by decide)).2.1, htype⟩

/-- The return statement of `f` has another one as its value, and no file has the function `g`. -/
def returnInReturn : Draft where
  nodes := #[.literal (.number "1"), .ret [0], .ret [1], .block [2], .funcDef "f" ⟨[], false, 3⟩,
    .literal (.number "2"), .ret [5], .block [6], .funcDef "g" ⟨[], false, 7⟩, .block [4]]
  files := #[⟨"nested.lua", 9, false⟩]

/-- What is collected is not all that `f` is the innermost function of, and it is something though
`g` is the innermost function of nothing. -/
theorem TreeShaped.returnsOf_not_by_function :
    let p := returnInReturn.build
    let collects (func block : NodeId) : Prop := ∃ stmts : List NodeId, stmts.Nodup ∧
      p.returnsOf block = stmts.map p.returned ∧
      ∀ stmt, stmt ∈ stmts ↔ p.Contains block stmt ∧ p.ReturnsFrom func stmt
    returnInReturn.TreeShaped ∧ ¬collects 4 3 ∧ ¬collects 8 7 := by
  intro p collects
  have htree : returnInReturn.TreeShaped := ⟨.of_descending (by decide), by decide⟩
  refine ⟨htree, ?_, ?_⟩
  · rintro ⟨stmts, -, hvalues, hmem⟩
    have houter : p.Contains 3 2 := .single ⟨_, rfl, List.mem_singleton_self 2⟩
    have hinner : p.Contains 3 1 := houter.tail ⟨_, rfl, List.mem_singleton_self 1⟩
    have hlength := congrArg List.length hvalues
    obtain ⟨stmt, rfl⟩ := List.length_eq_one_iff.mp ((List.length_map _).symm.trans hlength.symm)
    have houter := List.mem_singleton.mp ((hmem 2).mpr ⟨houter, by decide, by decide⟩)
    have hinner := List.mem_singleton.mp ((hmem 1).mpr ⟨hinner, by decide, by decide⟩)
    exact absurd (houter.trans hinner.symm) (by decide)
  · rintro ⟨stmts, -, hvalues, hmem⟩
    have hlength := congrArg List.length hvalues
    obtain ⟨stmt, rfl⟩ := List.length_eq_one_iff.mp ((List.length_map _).symm.trans hlength.symm)
    have hfunction := ((hmem stmt).mp (List.mem_singleton_self stmt)).2.function
    exact htree.place?_ancestor (List.mem_of_find?_eq_some hfunction) (by decide)

end Draft

end LuaTypes
