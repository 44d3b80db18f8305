import LuaTypes.Infer.Function
import LuaTypes.Program.Draft

/-!
Walks over programs. In a program where no node is its own descendant a path meets each node at most
once, so the room that walks are given is enough: with more room they go the same way.
-/

namespace LuaTypes

/-- No path along `next` from here goes through more than `room` live nodes. -/
def Fits (alive : NodeId → Prop) (next : NodeId → NodeId → Prop) : Nat → NodeId → Prop
  | 0, a => ¬alive a
  | room + 1, a => ∀ b, next a b → Fits alive next room b

section

variable {alive : NodeId → Prop} {next : NodeId → NodeId → Prop} {count : Nat}

/-- Induction on the room, where `path` are the live nodes that lead here. -/
theorem fits_of_path (hcount : ∀ a, alive a → a < count) (hnext : ∀ a b, next a b → alive a)
    (hacyclic : ∀ a, ¬Relation.TransGen next a a) (room : Nat) (path : List NodeId) (a : NodeId)
    (hnodup : path.Nodup) (hpath : ∀ b ∈ path, alive b ∧ Relation.TransGen next b a)
    (hroom : count ≤ room + path.length) : Fits alive next room a := by
  have hfresh : a ∉ path := fun h => hacyclic a (hpath a h).2
  have hnodup' : (a :: path).Nodup := List.nodup_cons.mpr ⟨hfresh, hnodup⟩
  induction room generalizing path a with
  | zero =>
    intro ha
    -- A live node here would make a path of more live nodes than there are.
    have hsubset : a :: path ⊆ List.range count := by
      intro b hb
      rw [List.mem_range]
      cases List.mem_cons.mp hb with
      | inl h => exact h ▸ hcount a ha
      | inr h => exact hcount b (hpath b h).1
    have hlength := hnodup'.length_le_of_subset hsubset
    simp only [List.length_cons, List.length_range] at hlength
    omega
  | succ room ih =>
    intro b hb
    have hpath' : ∀ c ∈ a :: path, alive c ∧ Relation.TransGen next c b := by
      intro c hc
      cases List.mem_cons.mp hc with
      | inl h => exact h ▸ ⟨hnext a b hb, .single hb⟩
      | inr h => exact ⟨(hpath c h).1, (hpath c h).2.tail hb⟩
    have hfresh' : b ∉ a :: path := fun h => hacyclic b (hpath' b h).2
    refine ih (a :: path) b hnodup' hpath' ?_ hfresh' (List.nodup_cons.mpr ⟨hfresh', hnodup'⟩)
    rw [List.length_cons]
    omega

theorem fits (hcount : ∀ a, alive a → a < count) (hnext : ∀ a b, next a b → alive a)
    (hacyclic : ∀ a, ¬Relation.TransGen next a a) (a : NodeId) : Fits alive next count a :=
  fits_of_path hcount hnext hacyclic count [] a List.nodup_nil (by simp) (Nat.le_refl _)

end

namespace Program

variable {p : Program}

/-- The second node is a child of the first. -/
def HasChild (p : Program) (id child : NodeId) : Prop :=
  ∃ node, p.node? id = some node ∧ child ∈ node.children

/-- No node is its own descendant. -/
def Acyclic (p : Program) : Prop := ∀ id, ¬Relation.TransGen p.HasChild id id

/-- A program where children come before their parents is acyclic. -/
theorem Acyclic.of_descending
    (h : ∀ id < p.nodes.size, ∀ child ∈ (p.node? id).elim [] Node.children, child < id) :
    p.Acyclic := by
  have hchild : ∀ {a b : NodeId}, p.HasChild a b → b < a := by
    rintro a b ⟨node, hnode, hmem⟩
    have hlt : a < p.nodes.size := (Array.getElem?_eq_some_iff.mp hnode).1
    exact h a hlt b (by rwa [hnode])
  have hlt : ∀ {a b : NodeId}, Relation.TransGen p.HasChild a b → b < a := fun hpath => by
    induction hpath with
    | single h => exact hchild h
    | tail _ h ih => exact Nat.lt_trans (hchild h) ih
  exact fun id hcycle => Nat.lt_irrefl id (hlt hcycle)

/-- The paths down from a node have no more than `room` nodes. -/
def FitsBelow (p : Program) : Nat → NodeId → Prop :=
  Fits (fun id => p.node? id ≠ none) p.HasChild

theorem node?_lt {id : NodeId} (h : p.node? id ≠ none) : id < p.nodes.size := by
  simpa [node?] using h

theorem Acyclic.fitsBelow (h : p.Acyclic) (id : NodeId) : p.FitsBelow p.nodes.size id :=
  fits (fun _ => node?_lt) (fun a b hbelow => by obtain ⟨node, hnode, -⟩ := hbelow; simp [hnode]) h id

theorem FitsBelow.child {room : Nat} {id : NodeId} (h : p.FitsBelow (room + 1) id) {node : Node}
    (hnode : p.node? id = some node) {child : NodeId} (hchild : child ∈ node.children) :
    p.FitsBelow room child :=
  h child ⟨node, hnode, hchild⟩

theorem textWithin_add {room : Nat} {id : NodeId} (h : p.FitsBelow room id) (extra : Nat) :
    p.textWithin (room + extra) id = p.textWithin room id := by
  induction room generalizing id with
  | zero =>
    have hnode : p.node? id = none := Classical.not_not.mp h
    cases extra with
    | zero => rfl
    | succ extra => simp [textWithin, hnode]
  | succ room ih =>
    rw [Nat.add_right_comm]
    simp only [textWithin]
    cases hnode : p.node? id with
    | none => rfl
    | some node =>
      have hchild : ∀ c ∈ node.children, p.textWithin (room + extra) c = p.textWithin room c :=
        fun c hc => ih (h.child hnode hc)
      have hlist (ids : List NodeId) (hids : ∀ c ∈ ids, c ∈ node.children) :
          ids.map (p.textWithin (room + extra)) = ids.map (p.textWithin room) :=
        List.map_congr_left fun c hc => hchild c (hids c hc)
      cases node with
      | index object key =>
        cases key with
        | dot name | colon name => simp only [hchild object (by simp [Node.children])]
        | bracket key =>
          simp only [hchild object (by simp [Node.children]), hchild key (by simp [Node.children])]
      | call callee args =>
        simp only [hchild callee (by simp [Node.children]),
          hlist args fun c hc => by simp [Node.children, hc]]
      | unary op operand => simp only [hchild operand (by simp [Node.children])]
      | binary op lhs rhs =>
        simp only [hchild lhs (by simp [Node.children]), hchild rhs (by simp [Node.children])]
      | literal value => cases value <;> rfl
      | table fields => simp only [hlist fields fun c hc => by simp [Node.children, hc]]
      | tableField key value =>
        cases key with
        | name name | positional => simp only [hchild value (by simp [Node.children])]
        | expr key =>
          simp only [hchild key (by simp [Node.children]), hchild value (by simp [Node.children])]
      | closure body =>
        simp only [hlist body.params fun c hc => by simp [Node.children, FuncBody.children, hc]]
      | paren expr => simp only [hchild expr (by simp [Node.children])]
      | _ => rfl

theorem returnsWithin_add {room : Nat} {id : NodeId} (h : p.FitsBelow room id) (extra : Nat) :
    p.returnsWithin (room + extra) id = p.returnsWithin room id := by
  induction room generalizing id with
  | zero =>
    have hnode : p.node? id = none := Classical.not_not.mp h
    cases extra with
    | zero => rfl
    | succ extra => simp [returnsWithin, hnode]
  | succ room ih =>
    rw [Nat.add_right_comm]
    simp only [returnsWithin]
    cases hnode : p.node? id with
    | none => rfl
    | some node =>
      have hchildren : node.children.reverse.flatMap (p.returnsWithin (room + extra))
          = node.children.reverse.flatMap (p.returnsWithin room) := by
        rw [List.flatMap_def, List.flatMap_def,
          List.map_congr_left fun c hc => ih (h.child hnode (List.mem_reverse.mp hc))]
      cases node <;> simp only [hchildren]

end Program

end LuaTypes
