import LuaTypes.Proofs.Bounded
import LuaTypes.Proofs.Joins
import LuaTypes.Proofs.Nested

/-!
Targets that are cleared. Whether a statement clears its target is read off the text of all its
values, so a target that is given the literal `nil` is cleared if that is the only value; next to
other values it is given the type `nil`, unless a comment documents its type.
-/

namespace LuaTypes

/-! Texts of lists. -/

theorem mem_toList_intercalate {texts : List String} (h : 1 < texts.length) :
    ',' ∈ (", ".intercalate texts).toList := by
  match texts, h with
  | first :: second :: rest, _ =>
    rw [String.intercalate_cons_cons, String.toList_append, String.toList_append]
    exact List.mem_append_left _ (List.mem_append_right _ (by decide))

namespace Program

variable {p : Program} {values : List NodeId} {value : NodeId}

theorem text_nil (h : p.node? value = some (.literal .nil)) : p.text value = nilWord := by
  have hroom : 0 < p.nodes.size := by
    have hsome : p.nodes[value]? = some (.literal .nil) := h
    have := (Array.getElem?_eq_some_iff.mp hsome).1
    omega
  obtain ⟨room, hsize⟩ := Nat.exists_eq_add_of_lt hroom
  rw [text, hsize, textWithin]
  simp only [h]

/-- A word is the text of a list with a literal `nil` only if the literal is all of it. -/
theorem listText_of_nil (hmem : value ∈ values) (hnil : p.node? value = some (.literal .nil)) :
    p.listText values = nilWord ∨ p.listText values = envWord ↔ values.length = 1 := by
  constructor
  · intro hword
    by_contra hlength
    have hpos := List.length_pos_of_mem hmem
    have hcomma : ',' ∈ (p.listText values).toList :=
      mem_toList_intercalate (by rw [List.length_map]; omega)
    rcases hword with hword | hword <;> rw [hword] at hcomma <;> revert hcomma <;> decide
  · intro hlength
    obtain ⟨only, rfl⟩ := List.length_eq_one_iff.mp hlength
    obtain rfl := List.mem_singleton.mp hmem
    exact .inl (String.intercalate_singleton.trans (text_nil hnil))

theorem isTable_nil (hnil : p.node? value = some (.literal .nil)) : p.isTable value = false := by
  rw [isTable, hnil]
  rfl

end Program

/-! What the target is given. -/

variable {env : Env} {target stmt position value : Nat} {targets values : List NodeId}

/-- The documented type, and if that is a sentinel and there are other values also the type of the
value. -/
theorem assignedTy_of_nil (htarget : env.program.assignTarget? target = some (stmt, position))
    (hstmt : env.program.node? stmt = some (.assign targets values))
    (hvalue : values[position]? = some value)
    (hnil : env.program.node? value = some (.literal .nil)) :
    assignedTy env target = (do
      let declared := (← declaredTy? env stmt).getD .unknown
      if declared.isInvalid ∧ values.length ≠ 1 then
        return declared.join (← ask (.listed (env.program.listText values) values position))
      else return declared) := by
  have hclears := Program.listText_of_nil (List.mem_of_getElem? hvalue) hnil
  have htable := Program.isTable_nil hnil
  simp only [assignedTy, htarget, hstmt]
  refine bind_congr fun declared? => ?_
  simp only [hvalue, Option.any_some, htable, Bool.not_false, Bool.and_true, Bool.or_eq_true,
    decide_eq_true_eq, hclears]
  cases (declared?.getD .unknown).isInvalid <;> by_cases hlength : values.length = 1 <;>
    simp [hlength]

/-- The value of a literal `nil` is found under its own key and that of its list. -/
theorem listed_of_nil (hcancelled : env.cancelled = false) (hvalue : values[position]? = some value)
    (hnil : env.program.node? value = some (.literal .nil)) (text : String) :
    (ask (.listed text values position)).Yields env [] .nil (1 + (1 + 0)) := by
  have hnode : (Query.answer env (.value value (.nth 0))).Yields env [.node value, .text text]
      .nil 0 := by
    have hliteral : Query.answer env (.value value (.nth 0)) = pure Ty.nil := by
      simp only [Query.answer, nodeTy, hnil]
      rfl
    rw [hliteral]
    exact .pure _
  have hlisted : (Query.answer env (.listed text values position)).Yields env [.text text] .nil
      (1 + 0) := by
    have hfirst : Query.answer env (.listed text values position) = valueTy value := by
      simp only [Query.answer, listedTy, hvalue]
    rw [hfirst]
    exact .ask hcancelled (by simp [Query.key]) (show 1 < maxInferDepth by decide) hnode
  exact .ask hcancelled List.not_mem_nil (by decide) hlisted

/-- Reading a comment changes nothing but what is read of classes. -/
theorem declaredTy?_snd (env : Env) (id : NodeId) (s : Request) :
    ∃ memo, (declaredTy? env id s).2 = { s with memo } := by
  rw [declaredTy?]
  cases env.program.doc? id with
  | none => exact ⟨s.memo, rfl⟩
  | some doc =>
    simp only
    cases doc.class? with
    | some cls => exact ⟨s.memo, rfl⟩
    | none => cases doc.type? <;> exact ⟨_, rfl⟩

theorem run_assignedTy_of_nil (hcancelled : env.cancelled = false)
    (htarget : env.program.assignTarget? target = some (stmt, position))
    (hstmt : env.program.node? stmt = some (.assign targets values))
    (hvalue : values[position]? = some value)
    (hnil : env.program.node? value = some (.literal .nil)) (memo : ClassMemo) :
    ((assignedTy env target).run env { memo }).1 =
      let declared := (declaredTy? env stmt { memo }).1.getD .unknown
      if declared.isInvalid ∧ values.length ≠ 1 then .nil else declared := by
  obtain ⟨memo', hread⟩ := declaredTy?_snd env stmt { memo }
  have hlisted := listed_of_nil hcancelled hvalue hnil (env.program.listText values)
  obtain ⟨g, hrun, -⟩ := hlisted.run (by decide) memo'
  have hbind (f : Option Ty → Asking Ty) :
      ((liftM (declaredTy? env stmt) : Asking (Option Ty)) >>= f).run env { memo }
        = (f (declaredTy? env stmt { memo }).1).run env (declaredTy? env stmt { memo }).2 := rfl
  rw [assignedTy_of_nil htarget hstmt hvalue hnil, hbind, hread]
  generalize (declaredTy? env stmt { memo }).1.getD .unknown = declared
  by_cases hasked : declared.isInvalid ∧ values.length ≠ 1
  · simp only [if_pos hasked]
    rw [Asking.run_bind]
    change declared.join (Asking.run env (ask _) _).1 = _
    rw [hrun]
    exact Ty.join_of_isInvalid_left hasked.1 rfl
  · simp only [if_neg hasked]
    rfl

theorem memberTy_of_origin {d : MemberDecl}
    (hd : d.origin = .assign target ∨ d.origin = .globalAssign target) :
    memberTy env d = assignedTy env target := by
  unfold memberTy
  rcases hd with hd | hd <;> rw [hd]

/-- A target that is given the literal `nil` has the documented type of its statement, or the
unknown type, if the literal is the only value of the statement. If there are other values, the
target has the documented type as well; but where there is none, or a sentinel, it has the type
`nil`. -/
theorem memberType_of_nil (hcancelled : env.cancelled = false)
    (htarget : env.program.assignTarget? target = some (stmt, position))
    (hstmt : env.program.node? stmt = some (.assign targets values))
    (hvalue : values[position]? = some value)
    (hnil : env.program.node? value = some (.literal .nil)) {d : MemberDecl}
    (hd : d.origin = .assign target ∨ d.origin = .globalAssign target) :
    memberTy env d = (do
      let declared := (← declaredTy? env stmt).getD .unknown
      if declared.isInvalid ∧ values.length ≠ 1 then
        return declared.join (← ask (.listed (env.program.listText values) values position))
      else return declared) ∧
    ∀ memo : ClassMemo,
      let declared := (declaredTy? env stmt { memo }).1.getD .unknown
      (values.length = 1 ∨ declared.isInvalid = false →
        (memberType env d { memo }).1 = declared) ∧
      (values.length ≠ 1 → declared.isInvalid = true →
        (memberType env d { memo }).1 = .nil) := by
  rw [memberTy_of_origin hd]
  refine ⟨assignedTy_of_nil htarget hstmt hvalue hnil, fun memo => ?_⟩
  have hrun := run_assignedTy_of_nil hcancelled htarget hstmt hvalue hnil memo
  rw [memberType, memberTy_of_origin hd, hrun]
  refine ⟨fun hcleared => if_neg ?_, fun hlength hinvalid => if_pos ⟨hinvalid, hlength⟩⟩
  rintro ⟨hinvalid, hlength⟩
  rcases hcleared with hone | hvalid
  · exact hlength hone
  · exact Bool.false_ne_true (hvalid.symm.trans hinvalid)

namespace Draft

/-- The program `x = nil y, z = nil, 1`. -/
def clearing : Draft where
  nodes := #[.nameRef "x", .literal .nil, .assign [0] [1], .nameRef "y", .nameRef "z",
    .literal .nil, .literal (.number "1"), .assign [3, 4] [5, 6], .block [2, 7]]
  files := #[⟨"clearing.lua", 8, false⟩]

abbrev clearingEnv : Env := .ofProgram clearing.build {}

/-- A global that is assigned to in the program. -/
def clearingDecl (name : String) (target : NodeId) : MemberDecl :=
  ⟨name, envWord, .globalAssign target, 0, clearing.build.offset target, false, false⟩

theorem clearing_declaredTy? (id : NodeId) : declaredTy? clearingEnv id = pure none := by
  have hdoc : clearingEnv.program.doc? id = none := by
    simp [Program.doc?, Env.ofProgram, build, clearing]
  rw [declaredTy?, hdoc]

end Draft

/-- `x` is cleared, and `y` is not. -/
theorem memberType_of_nil_clearing :
    (memberType Draft.clearingEnv (Draft.clearingDecl "x" 0) { memo := {} }).1 = .unknown ∧
      (memberType Draft.clearingEnv (Draft.clearingDecl "y" 3) { memo := {} }).1 = .nil := by
  have hx := @memberType_of_nil Draft.clearingEnv 0 2 0 1 [0] [1] rfl (by decide) rfl rfl rfl
    (Draft.clearingDecl "x" 0) (.inr rfl)
  have hy := @memberType_of_nil Draft.clearingEnv 3 7 0 5 [3, 4] [5, 6] rfl (by decide) rfl rfl rfl
    (Draft.clearingDecl "y" 3) (.inr rfl)
  simp only [Draft.clearing_declaredTy?] at hx hy
  exact ⟨(hx.2 {}).1 (.inl rfl), (hy.2 {}).2 (by decide) rfl⟩

/-- `y` is given the literal `nil` in a statement without a comment, and has a type from it. -/
theorem Draft.clearing_contributes :
    clearing.build.assignTarget? 3 = some (7, 0) ∧
    clearing.build.node? 7 = some (.assign [3, 4] [5, 6]) ∧
    clearing.build.node? 5 = some (.literal .nil) ∧
    (declaredTy? clearingEnv 7 { memo := {} }).1 = none ∧
    (memberType clearingEnv (clearingDecl "y" 3) { memo := {} }).1 ≠ .unknown := by
  have htarget : clearing.build.assignTarget? 3 = some (7, 0) := by decide
  refine ⟨htarget, rfl, rfl, by rw [clearing_declaredTy?]; rfl, ?_⟩
  have hrun := @run_assignedTy_of_nil clearingEnv 3 7 0 5 [3, 4] [5, 6] rfl htarget rfl rfl rfl {}
  rw [clearing_declaredTy?] at hrun
  rw [memberType, memberTy_of_origin (.inr rfl), hrun]
  nofun

end LuaTypes
