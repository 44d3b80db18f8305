import LuaTypes.Proofs.SimulatedRequests

/-!
An index that is not ready behaves as an empty one, and leaves the memo of class details alone.
-/

namespace LuaTypes

variable {env : Env}

theorem Index.findClass?_of_not_ready {ix : Index} (h : ix.ready = false) (name : String) :
    ix.findClass? name = none := by
  simp [findClass?, h]

/-- What a class reads through an index: through one that is not ready only what the memo holds
already. -/
theorem ClassTy.readDetails_not_ready {r : Resolver} (h : r.ready = false) (c : ClassTy)
    (memo : ClassMemo) : c.readDetails r memo = ((c.resolved? memo).getD {}, memo) := by
  simp only [readDetails, resolved?, h]
  cases c.details with
  | known d => rfl
  | deferred cell =>
    cases hread : memo.read[(c.name, cell)]? <;> simp [hread]

/-- The request against the index that is not ready, on the left, keeps its memo; the one against
the empty index may also note that classes are undeclared, which is how they read on the left. -/
structure Silent (before memo memo' : ClassMemo) : Prop where
  next : memo'.next = memo.next
  grown : before.next ≤ memo.next
  unread : memo.read = before.read
  read (key : String × Nat) : memo'.read[key]?.getD {} = before.read[key]?.getD {}

/-- Reading a class keeps the two memos in step. -/
theorem Silent.readDetails {r r' : Resolver} (h : r.ready = false) (hready : r'.ready = true)
    (hnone : ∀ name, r'.details? name = none) {before memo memo' : ClassMemo}
    (hmemo : Silent before memo memo') (c : ClassTy) :
    (c.readDetails r' memo').1 = (c.readDetails r memo).1 ∧
      Silent before (c.readDetails r memo).2 (c.readDetails r' memo').2 := by
  rw [c.readDetails_not_ready h]
  obtain ⟨name, var, flags, origin, details⟩ := c
  cases details with
  | known d => exact ⟨rfl, hmemo⟩
  | deferred cell =>
    have hread := hmemo.read (name, cell)
    rw [← hmemo.unread] at hread
    simp only [ClassTy.readDetails, ClassTy.resolved?, hready, hnone, if_true, ← hread]
    cases hcell : memo'.read[(name, cell)]? with
    | some d => exact ⟨rfl, hmemo⟩
    | none =>
      -- The empty index notes the class as undeclared, which is how it reads on the left unnoted.
      refine ⟨rfl, { hmemo with read := fun key => ?_ }⟩
      simp only [Std.HashMap.getElem?_insert]
      split
      · rename_i hkey
        rw [← hmemo.read, ← beq_iff_eq.mp hkey, hcell]
        rfl
      · exact hmemo.read key

/-- A request against an index that is not ready, and one against an empty index. -/
def Simulation.degraded (h : env.index.ready = false) (before : ClassMemo) : Simulation env {} where
  ρ cell := cell
  Memo := Silent before
  fresh := fun h => ⟨h.next, { h with
    next := congrArg (· + 1) h.next
    grown := Nat.le_succ_of_le h.grown }⟩
  details := fun c hmemo => by
    rw [ClassTy.rename_id]
    exact hmemo.readDetails h rfl (fun name => by simp [Env.resolver, Index.resolver, Index.findClass?]) c
  doc? := env.doc?_rename_id
  findClass? := fun name => by
    rw [Index.findClass?_of_not_ready h]
    simp [Index.findClass?]
  alias? := fun name => by
    simp [Env.resolver, Index.resolver, Index.findAlias?, h]
  aliasRoom := .inr fun name => by
    simp [Env.resolver, Index.resolver, Index.findAlias?, h]
  hasMembers := fun cls => by simp [Index.hasMembers, Index.membersOf, h]
  classMembers := fun cls => by simp [Index.classMembers, Index.membersOf, h]
  exact := fun cls name => by simp [Index.exact, Index.ownDecls, Index.membersOf, h]

theorem Silent.refl (memo : ClassMemo) : Silent memo memo memo :=
  ⟨rfl, Nat.le_refl _, rfl, fun _ => rfl⟩

/-- A request against an index that is not ready reads no class, and gives the type that a request
against an empty index gives. -/
theorem Silent.of_inferPick (h : env.index.ready = false) (node : NodeId) (pick : Pick)
    (memo : ClassMemo) :
    (inferPick env node pick { memo }).1 = (inferPick (env.withIndex {}) node pick { memo }).1 ∧
      Silent memo (inferPick env node pick { memo }).2.memo
        (inferPick (env.withIndex {}) node pick { memo }).2.memo := by
  let S := Simulation.degraded h memo
  obtain ⟨hty, g, hstate⟩ := S.inferPick_agree node pick (Simulation.State.new S (.refl memo))
  exact ⟨(hty.trans (Ty.rename_id _)).symm, hstate.memo⟩

/-- The environment while its index is not ready. -/
abbrev Env.offline (env : Env) : Env := env.withIndex { env.index with ready := false }

/-- Whatever the memo holds at the start, inferring with an index that is not ready gives the same
type as inferring with an empty one, and it leaves every class that has not been read unread. -/
theorem inferPick_offline (env : Env) (node : NodeId) (pick : Pick) (memo : ClassMemo) :
    (inferPick env.offline node pick { memo }).1
        = (inferPick (env.withIndex {}) node pick { memo }).1 ∧
      ∀ c : ClassTy,
        c.resolved? (inferPick env.offline node pick { memo }).2.memo = c.resolved? memo := by
  have h : env.offline.index.ready = false := rfl
  obtain ⟨hty, hmemo⟩ := Silent.of_inferPick h node pick memo
  refine ⟨hty, fun c => ?_⟩
  simp only [ClassTy.resolved?, hmemo.unread]

end LuaTypes
